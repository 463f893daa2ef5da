import Mathlib.Combinatorics.Enumerative.DoubleCounting
import SimpleKv.KeyStoreInvariant
import SimpleKv.Lib.Occupancy

/- The layout does not remember how it came about. The keys of a table fix how many
   entries have their home at each bucket, and these numbers fix the layout up to the
   order of entries with one home. So a table after deletions looks as if only the keys
   it still has had been inserted. -/
namespace SimpleKv
namespace KeyStore
open Outcome PartialMap RobinHood

variable {K V : Type}

section Slots
variable {n : ℕ} [NeZero n] {buckets buckets' : List (Option (Entry K V))}

/-- A key has one slot. -/
theorem slots_injective (hlen : buckets.length = n)
    (hdistinct : ((bindings buckets).map Prod.fst).Nodup) {i j : ZMod n} {e e' : Entry K V}
    (hi : slots n buckets i = some e) (hj : slots n buckets j = some e')
    (hkey : e.key = e'.key) : i = j := by
  by_contra hne
  obtain ⟨x, rfl⟩ : ∃ x : ℕ, (x : ZMod n) = i := ⟨i.val, ZMod.natCast_zmod_val i⟩
  -- with the first entry taken out, the key is still there
  have hperm := bindings_set hlen x none
  rw [hi] at hperm
  have hset : slots n (buckets.set (x % n) none) j = some e' := by
    rw [slots_set hlen, Function.update_of_ne (Ne.symm hne)]
    exact hj
  have hnodup : (e.key :: (bindings (buckets.set (x % n) none)).map Prod.fst).Nodup :=
    (hperm.map Prod.fst).nodup_iff.mpr hdistinct
  have hmem := List.mem_map_of_mem (f := Prod.fst) (mem_bindings_of_slots hset)
  rw [← hkey] at hmem
  exact (List.nodup_cons.mp hnodup).1 hmem

/-- A table that has every key of another has as many entries at each home. -/
theorem LaidOut.homes_le {hasher : K → UInt64} (h : LaidOut hasher n buckets)
    (h' : LaidOut hasher n buckets') (hdistinct : ((bindings buckets).map Prod.fst).Nodup)
    (hkeys : ∀ key ∈ (bindings buckets).map Prod.fst, key ∈ (bindings buckets').map Prod.fst)
    (i : ZMod n) : homes (home n) (slots n buckets) i ≤ homes (home n) (slots n buckets') i := by
  apply Finset.card_le_card_of_forall_subsingleton
    (fun j j' => ∃ e e', slots n buckets j = some e ∧ slots n buckets' j' = some e' ∧ e.key = e'.key)
  · intro j hj
    obtain ⟨_, e, he, hhome⟩ := Finset.mem_filter.mp hj
    have hkey := hkeys _ (List.mem_map_of_mem (f := Prod.fst) (mem_bindings_of_slots he))
    obtain ⟨_, hbinding, hfst⟩ := List.mem_map.mp hkey
    obtain ⟨e', he', rfl⟩ := List.mem_map.mp hbinding
    obtain ⟨j', hj'⟩ := exists_slots h'.length he'
    refine ⟨j', Finset.mem_filter.mpr ⟨Finset.mem_univ _, e', hj', ?_⟩, e, e', he, hj', hfst.symm⟩
    -- equal keys have equal hashes, and so one home
    have hhash : e'.hash = e.hash := by
      rw [h'.hashed hj', h.hashed he]
      exact congrArg hasher hfst
    rw [← hhome, home, home, hhash]
  · intro j' _ j₁ h₁ j₂ h₂
    obtain ⟨_, e₁, e', he₁, hj', hkey₁⟩ := h₁
    obtain ⟨_, e₂, e'', he₂, hj'', hkey₂⟩ := h₂
    rw [hj'] at hj''
    cases hj''
    exact slots_injective h.length hdistinct he₁ he₂ (hkey₁.trans hkey₂.symm)

theorem getElem?_psl (hlen : buckets.length = n) {x : ℕ} (hx : x < n) :
    (buckets.map (Option.map Entry.psl))[x]? =
      some ((slots n buckets (x : ZMod n)).map Entry.psl) := by
  have hslot := getElem?_slots hlen x
  rw [Nat.mod_eq_of_lt hx] at hslot
  rw [List.getElem?_map, hslot, Option.map_some]

/-- Tables of one size with the same keys have entries in the same buckets, at the same
    distances from home. -/
theorem LaidOut.psl_eq {hasher : K → UInt64} (h : LaidOut hasher n buckets)
    (h' : LaidOut hasher n buckets') (hdistinct : ((bindings buckets).map Prod.fst).Nodup)
    (hdistinct' : ((bindings buckets').map Prod.fst).Nodup)
    (hkeys : ∀ key, key ∈ (bindings buckets).map Prod.fst ↔ key ∈ (bindings buckets').map Prod.fst)
    {z z' : ZMod n} (hz : slots n buckets z = none) (hz' : slots n buckets' z' = none) :
    buckets.map (Option.map Entry.psl) = buckets'.map (Option.map Entry.psl) := by
  have hhomes : ∀ i, homes (home n) (slots n buckets) i = homes (home n) (slots n buckets') i := by
    intro i
    apply Nat.le_antisymm
    · exact h.homes_le h' hdistinct (fun key hk => (hkeys key).mp hk) i
    · exact h'.homes_le h hdistinct' (fun key hk => (hkeys key).mpr hk) i
  apply List.ext_getElem?
  intro x
  by_cases hx : x < n
  · rw [getElem?_psl h.length hx, getElem?_psl h'.length hx]
    exact congrArg some (Layout.unique h.layout h'.layout hz hz' hhomes x)
  · rw [List.getElem?_eq_none (by rw [List.length_map, h.length]; omega),
      List.getElem?_eq_none (by rw [List.length_map, h'.length]; omega)]

end Slots

/-- What shows of a table without its keys and values: which buckets are occupied, and the
    `psl` in each of these. -/
def outline (self : KeyStore K V) : List (Option Nat) := self.buckets.map (Option.map Entry.psl)

namespace Holds
variable {self self' : KeyStore K V} {m m' : K → Option V}

/-- Two tables of one size with the same keys have the same outline. -/
theorem outline_eq (h : Holds self m) (h' : Holds self' m') (hhasher : self'.hasher = self.hasher)
    (hkeys : ∀ key, m key ≠ none ↔ m' key ≠ none)
    (hlen : self'.buckets.length = self.buckets.length) : self.outline = self'.outline := by
  have := h.capacity.neZero
  have hlaid : LaidOut self.hasher self.buckets.length self'.buckets := by
    rw [← hlen, ← hhasher]
    exact h'.laidOut
  obtain ⟨z, hz⟩ := h.exists_free
  have hfree : ∃ z', slots self.buckets.length self'.buckets z' = none := by
    rw [← hlen]
    exact h'.exists_free
  obtain ⟨z', hz'⟩ := hfree
  apply h.laidOut.psl_eq hlaid h.lists.distinct h'.lists.distinct ?_ hz hz'
  intro key
  exact h.lists.mem_keys.trans ((hkeys key).trans h'.lists.mem_keys.symm)

/-- In two tables of one outline, the entries of a bucket have one home. -/
theorem home_eq (h : Holds self m) (h' : Holds self' m')
    (hlen : self'.buckets.length = self.buckets.length) (houtline : self.outline = self'.outline)
    {i : ℕ} {e e' : Entry K V} (he : self.buckets[i]? = some (some e))
    (he' : self'.buckets[i]? = some (some e')) :
    getBucketIndex self.buckets e.hash 0 = getBucketIndex self'.buckets e'.hash 0 := by
  have := h.capacity.neZero
  have hpsl : e.psl = e'.psl := by
    have hget := congrArg (fun l => l[i]?) houtline
    simpa [outline, he, he'] using hget
  obtain ⟨_, hi, _⟩ := h.robinHoodTable.placed he
  obtain ⟨_, hi', _⟩ := h'.robinHoodTable.placed he'
  rw [hlen, ← hpsl, hi] at hi'
  rw [getBucketIndex_eq h.capacity rfl, getBucketIndex_eq h'.capacity rfl, hlen]
  exact Nat.ModEq.add_right_cancel' e.psl hi'

variable [DecidableEq K]

/-- Taking a new key out again after it was put in restores the outline. -/
theorem outline_insert_del (h : Holds self m) {key : K} (hm : m key = none) {value : V}
    {inserted removed : KeyStore K V} {old r : Option V}
    (hinsert : self.insert key value = .ok (old, inserted))
    (hlen : inserted.buckets.length = self.buckets.length)
    (hdel : inserted.del key = .ok (r, removed)) : removed.outline = self.outline := by
  have hinserted := (Yields.of_ok (insert_spec h key value) hinsert).2
  obtain ⟨removed', hrun, hremoved, hlen'⟩ := del_spec hinserted key
  rw [hdel] at hrun
  cases hrun
  have hhasher : inserted.hasher = self.hasher :=
    Yields.of_ok (x := Op.run (.insert key value) self) (Op.run_hasher _ self) hinsert
  have hhasher' : removed.hasher = inserted.hasher :=
    Yields.of_ok (x := Op.run (.del key) inserted) (Op.run_hasher _ inserted) hdel
  apply Eq.symm
  apply h.outline_eq hremoved (hhasher'.trans hhasher) ?_ (hlen'.trans hlen)
  intro key'
  by_cases hk : key' = key
  · subst hk
    rw [hm, Function.update_self]
  · rw [Function.update_of_ne hk, Function.update_of_ne hk]

end Holds

section Runs
variable [DecidableEq K]

/-- Calls that end with the same keys in as many buckets end with the same buckets occupied
    and the same `psl` in each, so that only entries with one home bucket can have changed
    places. Inserting a new key without growth and deleting it leaves no trace. -/
theorem runOps_outline (hasher : K → UInt64) {ops ops' : List (Op K V)}
    {results results' : List (Option V)} {self self' : KeyStore K V}
    (hrun : runOps ops (withHasher hasher) = .ok (results, self))
    (hrun' : runOps ops' (withHasher hasher) = .ok (results', self')) :
    ((∀ key, key ∈ self.iter.map Prod.fst ↔ key ∈ self'.iter.map Prod.fst) →
      self.buckets.length = self'.buckets.length →
      self.outline = self'.outline ∧
        ∀ (i : ℕ) (e e' : Entry K V), self.buckets[i]? = some (some e) → self'.buckets[i]? = some (some e') →
          getBucketIndex self.buckets e.hash 0 = getBucketIndex self'.buckets e'.hash 0) ∧
    ∀ key value inserted old removed, key ∉ self.iter.map Prod.fst →
      self.insert key value = .ok (none, inserted) →
      inserted.buckets.length = self.buckets.length →
      inserted.del key = .ok (old, removed) → removed.outline = self.outline := by
  have h := (Yields.of_ok (runOps_spec ops (withHasher_holds hasher)) hrun).2
  have h' := (Yields.of_ok (runOps_spec ops' (withHasher_holds hasher)) hrun').2
  constructor
  · intro hkeys hlen
    have hhasher : self'.hasher = self.hasher :=
      (hasher_of_runOps hrun').trans (hasher_of_runOps hrun).symm
    have houtline := h.outline_eq h' hhasher
      (fun key => h.lists.mem_keys.symm.trans ((hkeys key).trans h'.lists.mem_keys)) hlen.symm
    exact ⟨houtline, fun i e e' => h.home_eq h' hlen.symm houtline⟩
  · intro key value inserted old removed hkey hinsert hlen hdel
    have hm : (opsOnMap ops (fun _ => none)).2 key = none := by
      by_contra hbound
      exact hkey (h.lists.mem_keys.mpr hbound)
    exact h.outline_insert_del hm hinsert hlen hdel

/-- Three keys with one home, in this order around the end of the table. -/
def around (a b c : ℕ) : KeyStore ℕ ℕ where
  len := 3
  buckets := some ⟨c, 0, 2, 14⟩ :: List.replicate 13 none ++ [some ⟨a, 0, 0, 14⟩, some ⟨b, 0, 1, 14⟩]
  hasher := fun _ => 14

/-- A key that was deleted and came back, against one that was never deleted. -/
theorem runOps_outline_around : (around 2 3 1).outline = (around 3 1 2).outline :=
  ((runOps_outline (fun _ => 14)
    (show runOps [.insert 1 0, .insert 2 0, .insert 3 0, .del 1, .insert 1 0] _ =
      .ok ([none, none, none, some 0, none], around 2 3 1) from rfl)
    (show runOps [.insert 3 0, .insert 1 0, .insert 2 0] _ =
      .ok ([none, none, none], around 3 1 2) from rfl)).1 (by simp [around, iter, List.reduceOption]; omega) rfl).1

end Runs
end KeyStore
end SimpleKv
