import SimpleKv.KeyStore

/- When there is no memory for a key store. Only `resize` asks for any, and it is called
   where three quarters of the buckets are taken: a table that cannot be doubled holds a
   very large number of keys (`keyLimit`). What an operation adds to the keys is counted
   here, and nothing else is: the table may be any, and the other ways to stop are left to
   the specifications. -/
namespace SimpleKv
open Outcome

/-- The keys at which a table of `2^58` buckets is to be doubled. -/
def keyLimit : ℕ := 3 * 2^56

/-- A fault for want of memory comes with many keys. -/
def Fault.Crowded (keys : ℕ) (f : Fault) : Prop := f.OutOfMemory → keyLimit ≤ keys

/-- `x` returns a value with `post` if there is room for `keys` keys, as there is for any
    number below `keyLimit`. -/
abbrev CompletesFor {α : Type} (keys : ℕ) (x : Rust α) (post : α → Prop) : Prop :=
  Yields (fun f => f.OutOfMemory ∧ keyLimit ≤ keys) x post

theorem Fault.Crowded.mono {keys keys' : ℕ} (h : keys ≤ keys') {f : Fault} (hf : f.Crowded keys) :
    f.Crowded keys' :=
  fun hmem => Nat.le_trans (hf hmem) h

/-- What `x` returns, with the keys there are where it does not. -/
theorem CompletesFor.intro {α : Type} {keys : ℕ} {x : Rust α} {post room : α → Prop}
    (h : Completes x post) (hkeys : Yields (Fault.Crowded keys) x room) : CompletesFor keys x post := by
  cases x with
  | ok a => exact h
  | error f => exact ⟨h, hkeys h⟩

theorem CompletesFor.completes {α : Type} {keys : ℕ} {x : Rust α} {post : α → Prop}
    (h : CompletesFor keys x post) : Completes x post :=
  h.weaken (fun _ hf => hf.1)

theorem index_crowded {α : Type} (keys : ℕ) (xs : List α) (i : ℕ) :
    Yields (Fault.Crowded keys) (index xs i) (fun _ => True) := by
  unfold index
  split
  · trivial
  · exact False.elim

namespace KeyStore
variable {K V : Type}

section Growth

theorem insertEntryLoop_crowded (keys : ℕ) : ∀ (fuel : ℕ) (buckets : List (Option (Entry K V)))
    (entry : Entry K V),
    Yields (Fault.Crowded keys) (insertEntryLoop fuel buckets entry) (fun _ => True) := by
  intro fuel
  induction fuel with
  | zero =>
    intro buckets entry
    exact False.elim
  | succ fuel ih =>
    intro buckets entry
    rw [insertEntryLoop, insertEntryLoopWith]
    apply Yields.bind (index_crowded keys buckets _)
    intro slot _
    cases slot with
    | none => trivial
    | some e =>
      by_cases hpsl : e.psl < entry.psl
      · simp only [hpsl, if_true]
        exact ih _ _
      · simp only [hpsl, if_false]
        exact ih _ _

theorem insertEntry_crowded (keys : ℕ) (self : KeyStore K V) (entry : Entry K V) :
    Yields (Fault.Crowded keys) (self.insertEntry entry) (fun self' => self'.len = self.len) :=
  Yields.bind (insertEntryLoop_crowded keys _ _ _) (fun _ _ => rfl)

/-- A table that is three quarters full and too large to be doubled has `keyLimit` keys. -/
theorem resize_crowded {self : KeyStore K V} (hfull : self.shouldResize = true) :
    Yields (Fault.Crowded self.len) self.resize (fun self' => self'.len = self.len) := by
  have hfull : 3 * self.buckets.length ≤ 4 * self.len := of_decide_eq_true hfull
  have hreserve : Yields (Fault.Crowded self.len) (reserve (self.buckets.length * 2) entrySize)
      (fun _ => True) := by
    unfold reserve
    split
    · next hmem =>
      intro _
      unfold isizeMax entrySize at hmem
      unfold keyLimit
      omega
    · trivial
  unfold resize resizeWith
  apply Yields.bind hreserve
  intro _ _
  exact Yields.foldlM (fun _ (store : KeyStore K V) => store.len = self.len)
    (fun e _ store h => (insertEntry_crowded self.len store e).mono (fun _ h' => h'.trans h)) _ _ rfl

end Growth

section Operations
variable [DecidableEq K]

theorem insertLoop_crowded (keys : ℕ) : ∀ (fuel : ℕ) (buckets : List (Option (Entry K V)))
    (entry : Entry K V) (i : ℕ),
    Yields (Fault.Crowded keys) (insertLoop fuel buckets entry i) (fun _ => True) := by
  intro fuel
  induction fuel with
  | zero =>
    intro buckets entry i
    exact False.elim
  | succ fuel ih =>
    intro buckets entry i
    rw [insertLoop, insertLoopWith]
    apply Yields.bind (index_crowded keys buckets i)
    intro slot _
    cases slot with
    | none => trivial
    | some e =>
      by_cases hkey : e.hash = entry.hash ∧ e.key = entry.key
      · simp only [hkey, and_self, if_true]
        trivial
      simp only [hkey, if_false]
      by_cases hpsl : e.psl < entry.psl
      · simp only [hpsl, if_true]
        exact ih _ _ _
      · simp only [hpsl, if_false]
        exact ih _ _ _

/-- One key more at most. -/
theorem insert_crowded (self : KeyStore K V) (key : K) (value : V) :
    Yields (Fault.Crowded (self.len + 1)) (self.insert key value)
      (fun r => r.2.len ≤ self.len + 1) := by
  unfold insert
  apply Yields.bind (insertLoop_crowded _ _ _ _ _)
  intro (old, buckets) _
  cases old with
  | some old => exact Nat.le_succ self.len
  | none =>
    by_cases hfull : KeyStore.shouldResize { self with len := self.len + 1, buckets } = true
    · simp only [hfull, if_true]
      exact Yields.bind (resize_crowded hfull) (fun _ hlen => Nat.le_of_eq hlen)
    · simp only [hfull]
      exact Nat.le_refl _

theorem indexOfLoop_crowded (keys : ℕ) (self : KeyStore K V) (key : K) (hash : UInt64) :
    ∀ (fuel psl : ℕ),
      Yields (Fault.Crowded keys) (indexOfLoop fuel self key hash psl) (fun _ => True) := by
  intro fuel
  induction fuel with
  | zero =>
    intro psl
    exact False.elim
  | succ fuel ih =>
    intro psl
    rw [indexOfLoop, indexOfLoopWith]
    apply Yields.bind (index_crowded keys _ _)
    intro slot _
    cases slot with
    | none => trivial
    | some e =>
      by_cases hpsl : e.psl < psl
      · simp only [hpsl, if_true]
        trivial
      simp only [hpsl, if_false]
      by_cases hkey : e.hash = hash ∧ e.key = key
      · simp only [hkey, and_self, if_true]
        trivial
      · simp only [hkey, if_false]
        exact ih _

theorem get_crowded (keys : ℕ) (self : KeyStore K V) (key : K) :
    Yields (Fault.Crowded keys) (self.get key) (fun _ => True) := by
  unfold get
  apply Yields.bind (indexOfLoop_crowded keys _ _ _ _ _)
  intro place _
  cases place with
  | none => trivial
  | some i => exact Yields.bind (index_crowded keys _ _) (fun _ _ => trivial)

theorem getMut_crowded (keys : ℕ) (self : KeyStore K V) (key : K) (update : V → V) :
    Yields (Fault.Crowded keys) (self.getMut key update) (fun r => r.2.len = self.len) := by
  unfold getMut
  apply Yields.bind (indexOfLoop_crowded keys _ _ _ _ _)
  intro place _
  cases place with
  | none => rfl
  | some i =>
    apply Yields.bind (index_crowded keys _ _)
    intro slot _
    cases slot <;> rfl

omit [DecidableEq K] in
theorem shiftLoop_crowded (keys : ℕ) : ∀ (fuel : ℕ) (buckets : List (Option (Entry K V))) (idx : ℕ),
    Yields (Fault.Crowded keys) (shiftLoop fuel buckets idx) (fun _ => True) := by
  intro fuel
  induction fuel with
  | zero =>
    intro buckets idx
    exact False.elim
  | succ fuel ih =>
    intro buckets idx
    rw [shiftLoop]
    apply Yields.bind (index_crowded keys _ _)
    intro slot _
    cases slot with
    | none => trivial
    | some e =>
      by_cases hpsl : e.psl > 0
      · simp only [hpsl, if_true]
        exact Yields.bind (index_crowded keys _ _) (fun _ _ => ih _ _)
      · simp only [hpsl, if_false]
        trivial

theorem delLoop_crowded (keys : ℕ) (self : KeyStore K V) (key : K) (hash : UInt64) :
    ∀ (fuel psl : ℕ), Yields (Fault.Crowded keys) (delLoop fuel self key hash psl)
      (fun r => r.2.len ≤ self.len) := by
  intro fuel
  induction fuel with
  | zero =>
    intro psl
    exact False.elim
  | succ fuel ih =>
    intro psl
    rw [delLoop, delLoopWith]
    apply Yields.bind (index_crowded keys _ _)
    intro slot _
    cases slot with
    | none => exact Nat.le_refl _
    | some e =>
      by_cases hpsl : e.psl < psl
      · simp only [hpsl, if_true]
        exact Nat.le_refl _
      simp only [hpsl, if_false]
      by_cases hkey : e.hash = hash ∧ e.key = key
      · simp only [hkey, and_self, if_true]
        exact Yields.bind (shiftLoop_crowded keys _ _ _) (fun _ _ => Nat.sub_le _ _)
      · simp only [hkey, if_false]
        exact ih _

theorem del_crowded (keys : ℕ) (self : KeyStore K V) (key : K) :
    Yields (Fault.Crowded keys) (self.del key) (fun r => r.2.len ≤ self.len) :=
  delLoop_crowded keys self key _ _ _

end Operations
end KeyStore
end SimpleKv
