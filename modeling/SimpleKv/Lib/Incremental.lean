import Mathlib.Data.List.Basic

/- Incremental parsers. A parser looks at the start of the input received so far
   and answers that it needs `more`, that the input is wrong (`fail`), or that it
   is `done` with a value and the input left over. An incremental parser never
   revises an answer: `done` and `fail` stay what they are when more input
   arrives. The combinators below keep this property, so a grammar built from
   them has it by construction.

   Two consequences carry the uses. A value whose encoding the parser accepts is
   not seen in any proper prefix of the encoding (`run_prefix`): there the parser
   wants more. And what a stream holds (`Drains`) is a function of the stream
   (`Drains.unique`), however it is cut into pieces on arrival. -/
namespace Incremental

variable {β ε α γ : Type}

inductive Step (β ε α : Type) where
  | more
  | fail (e : ε)
  | done (a : α) (rest : List β)

/-- Answers are final, and what is left over is a suffix of the input. -/
structure Parser (β ε α : Type) where
  run : List β → Step β ε α
  done_append : ∀ {s t : List β} {a : α} {r : List β}, run s = .done a r → run (s ++ t) = .done a (r ++ t)
  fail_append : ∀ {s t : List β} {e : ε}, run s = .fail e → run (s ++ t) = .fail e
  done_suffix : ∀ {s r : List β} {a : α}, run s = .done a r → ∃ p, s = p ++ r

namespace Parser

def pure (a : α) : Parser β ε α where
  run s := .done a s
  done_append h := by cases h; rfl
  fail_append h := by cases h
  done_suffix h := by cases h; exact ⟨[], rfl⟩

def throw (e : ε) : Parser β ε α where
  run _ := .fail e
  done_append h := by cases h
  fail_append h := by cases h; rfl
  done_suffix h := by cases h

def ofExcept : Except ε α → Parser β ε α
  | .ok a => pure a
  | .error e => throw e

/-- `p`, then `f` on what `p` left over. -/
def bindRun (p : Parser β ε α) (f : α → Parser β ε γ) (s : List β) : Step β ε γ :=
  match p.run s with
  | .more => .more
  | .fail e => .fail e
  | .done a r => (f a).run r

theorem bindRun_done {p : Parser β ε α} {f : α → Parser β ε γ} {s r : List β} {a : α}
    (h : p.run s = .done a r) : bindRun p f s = (f a).run r := by
  unfold bindRun; rw [h]

theorem bindRun_fail {p : Parser β ε α} {f : α → Parser β ε γ} {s : List β} {e : ε}
    (h : p.run s = .fail e) : bindRun p f s = .fail e := by
  unfold bindRun; rw [h]

theorem bindRun_more {p : Parser β ε α} {f : α → Parser β ε γ} {s : List β}
    (h : p.run s = .more) : bindRun p f s = .more := by
  unfold bindRun; rw [h]

def bind (p : Parser β ε α) (f : α → Parser β ε γ) : Parser β ε γ where
  run := bindRun p f
  done_append {s t c r} h := by
    cases hp : p.run s with
    | more => rw [bindRun_more hp] at h; cases h
    | fail e => rw [bindRun_fail hp] at h; cases h
    | done a q =>
      rw [bindRun_done hp] at h
      rw [bindRun_done (p.done_append hp)]
      exact (f a).done_append h
  fail_append {s t e} h := by
    cases hp : p.run s with
    | more => rw [bindRun_more hp] at h; cases h
    | fail e' =>
      rw [bindRun_fail hp] at h
      rw [bindRun_fail (p.fail_append hp)]
      exact h
    | done a q =>
      rw [bindRun_done hp] at h
      rw [bindRun_done (p.done_append hp)]
      exact (f a).fail_append h
  done_suffix {s r c} h := by
    cases hp : p.run s with
    | more => rw [bindRun_more hp] at h; cases h
    | fail e => rw [bindRun_fail hp] at h; cases h
    | done a q =>
      rw [bindRun_done hp] at h
      obtain ⟨u, rfl⟩ := p.done_suffix hp
      obtain ⟨v, rfl⟩ := (f a).done_suffix h
      exact ⟨u ++ v, (List.append_assoc _ _ _).symm⟩

theorem bind_done {p : Parser β ε α} {f : α → Parser β ε γ} {s r : List β} {a : α}
    (h : p.run s = .done a r) : (p.bind f).run s = (f a).run r := bindRun_done h

theorem bind_fail {p : Parser β ε α} {f : α → Parser β ε γ} {s : List β} {e : ε}
    (h : p.run s = .fail e) : (p.bind f).run s = .fail e := bindRun_fail h

theorem bind_more {p : Parser β ε α} {f : α → Parser β ε γ} {s : List β}
    (h : p.run s = .more) : (p.bind f).run s = .more := bindRun_more h

/-- The next `n` symbols. -/
def take (n : Nat) : Parser β ε (List β) where
  run s := if n ≤ s.length then .done (s.take n) (s.drop n) else .more
  done_append {s t a r} h := by
    split at h
    · next hn =>
      cases h
      rw [if_pos (by rw [List.length_append]; omega), List.take_append_of_le_length hn,
        List.drop_append_of_le_length hn]
    · cases h
  fail_append h := by split at h <;> cases h
  done_suffix {s r a} h := by
    split at h
    · cases h; exact ⟨s.take n, (List.take_append_drop n s).symm⟩
    · cases h

/-- `n` symbols and a terminator. -/
def block [DecidableEq β] (n : Nat) (terminator : List β) (e : ε) : Parser β ε (List β) :=
  (take (n + terminator.length)).bind (fun s =>
    if s.drop n = terminator then pure (s.take n) else throw e)

theorem block_run [DecidableEq β] (n : Nat) (terminator : List β) (e : ε) (s : List β) :
    (block n terminator e).run s =
      if n + terminator.length ≤ s.length then
        if (s.take (n + terminator.length)).drop n = terminator then
          .done (s.take n) (s.drop (n + terminator.length))
        else .fail e
      else .more := by
  by_cases hn : n + terminator.length ≤ s.length
  · have htake : (take (n + terminator.length) : Parser β ε (List β)).run s =
        .done (s.take (n + terminator.length)) (s.drop (n + terminator.length)) := if_pos hn
    unfold block
    rw [bind_done htake, if_pos hn]
    by_cases hend : (s.take (n + terminator.length)).drop n = terminator
    · rw [if_pos hend, if_pos hend, List.take_take, Nat.min_eq_left (Nat.le_add_right _ _)]
      rfl
    · rw [if_neg hend, if_neg hend]
      rfl
  · rw [if_neg hn]
    exact bind_more (if_neg hn)

/-- The first symbol chooses the parser. It is left in the input. -/
def branchRun (f : β → Parser β ε α) : List β → Step β ε α
  | [] => .more
  | b :: s => (f b).run (b :: s)

def branch (f : β → Parser β ε α) : Parser β ε α where
  run := branchRun f
  done_append {s t a r} h := by
    cases s with
    | nil => cases h
    | cons b s => exact (f b).done_append h
  fail_append {s t e} h := by
    cases s with
    | nil => cases h
    | cons b s => exact (f b).fail_append h
  done_suffix {s r a} h := by
    cases s with
    | nil => cases h
    | cons b s => exact (f b).done_suffix h

/-- `p`, `n` times over. -/
def times (p : Parser β ε α) : Nat → Parser β ε (List α)
  | 0 => pure []
  | n+1 => p.bind (fun a => (times p n).bind (fun as => pure (a :: as)))

/-- The values `as`, already read, and `n` more. -/
def collect (p : Parser β ε α) (f : List α → γ) (as : List α) (n : Nat) : Parser β ε γ :=
  (times p n).bind (fun rest => pure (f (as ++ rest)))

section Collect
variable {p : Parser β ε α} {f : List α → γ} {as : List α} {n : Nat} {s r : List β}

theorem collect_zero : (collect p f as 0).run s = .done (f as) s := by
  show Step.done (f (as ++ [])) s = _
  rw [List.append_nil]

theorem collect_done {a : α} (h : p.run s = .done a r) :
    (collect p f as (n + 1)).run s = (collect p f (as ++ [a]) n).run r := by
  unfold collect
  have hstep : (times p (n + 1)).run s = ((times p n).bind (fun rest => pure (a :: rest))).run r :=
    bind_done h
  cases ht : (times p n).run r with
  | more => rw [bind_more ht, bind_more (hstep.trans (bind_more ht))]
  | fail e => rw [bind_fail ht, bind_fail (hstep.trans (bind_fail ht))]
  | done rest q =>
    rw [bind_done ht, bind_done (hstep.trans (bind_done ht))]
    show Step.done _ _ = Step.done _ _
    rw [List.append_assoc]
    rfl

theorem collect_fail {e : ε} (h : p.run s = .fail e) : (collect p f as (n + 1)).run s = .fail e :=
  bind_fail (bind_fail h)

theorem collect_more (h : p.run s = .more) : (collect p f as (n + 1)).run s = .more :=
  bind_more (bind_more h)

end Collect

theorem bind_eq_done {p : Parser β ε α} {f : α → Parser β ε γ} {s r : List β} {c : γ}
    (h : (p.bind f).run s = .done c r) : ∃ a q, p.run s = .done a q ∧ (f a).run q = .done c r := by
  cases hp : p.run s with
  | more => rw [bind_more hp] at h; cases h
  | fail e => rw [bind_fail hp] at h; cases h
  | done a q =>
    rw [bind_done hp] at h
    exact ⟨a, q, rfl, h⟩

theorem ofExcept_eq_done {x : Except ε α} {s r : List β} {a : α}
    (h : (ofExcept x).run s = .done a r) : x = .ok a ∧ s = r := by
  cases x with
  | ok a => cases h; exact ⟨rfl, rfl⟩
  | error e => cases h

/-- Reading `p` over and over reads so many values, each of them by `p`. -/
theorem times_eq_done {p : Parser β ε α} : ∀ {n : Nat} {s r : List β} {as : List α},
    (p.times n).run s = .done as r →
      as.length = n ∧ ∀ a ∈ as, ∃ s' r', p.run s' = .done a r' := by
  intro n
  induction n with
  | zero =>
    intro s r as h
    cases h
    exact ⟨rfl, by simp⟩
  | succ n ih =>
    intro s r as h
    obtain ⟨a, q, hp, h⟩ := bind_eq_done h
    obtain ⟨as', q', ht, h⟩ := bind_eq_done h
    cases h
    obtain ⟨hlen, hmem⟩ := ih ht
    refine ⟨by rw [List.length_cons, hlen], fun b hb => ?_⟩
    rcases List.mem_cons.mp hb with rfl | hb
    · exact ⟨s, q, hp⟩
    · exact hmem b hb

/-- `k` values read off `s` leave `t`. -/
inductive After (p : Parser β ε α) : Nat → List β → List β → Prop where
  | zero (s : List β) : After p 0 s s
  | succ {k : Nat} {s r t : List β} {a : α} :
      p.run s = .done a r → After p k r t → After p (k + 1) s t

namespace After
variable {p : Parser β ε α} {k : Nat} {s t : List β}

theorem snoc {r : List β} {a : α} (h : After p k s t) (ht : p.run t = .done a r) :
    After p (k + 1) s r := by
  induction h with
  | zero => exact .succ ht (.zero _)
  | succ hs _ ih => exact .succ hs (ih ht)

theorem length_le (h : After p k s t) : t.length ≤ s.length := by
  induction h with
  | zero => exact Nat.le_refl _
  | succ hs _ ih =>
    obtain ⟨u, rfl⟩ := p.done_suffix hs
    rw [List.length_append]
    omega

/-- More input is left over in the end. -/
theorem append (h : After p k s t) (u : List β) : After p k (s ++ u) (t ++ u) := by
  induction h with
  | zero => exact .zero _
  | succ hs _ ih => exact .succ (p.done_append hs) ih

theorem unique {t' : List β} (h : After p k s t) (h' : After p k s t') : t = t' := by
  induction h with
  | zero =>
    cases h'
    rfl
  | succ hs _ ih =>
    cases h' with
    | succ hs' h' =>
      rw [hs] at hs'
      cases hs'
      exact ih h'

end After

/-- Every value takes some input. -/
def Consumes (p : Parser β ε α) : Prop := ∀ s r a, p.run s = .done a r → r.length < s.length

namespace Consumes

theorem throw (e : ε) : Consumes (Parser.throw e : Parser β ε α) := by
  intro s r a h
  cases h

theorem bind {p : Parser β ε α} {f : α → Parser β ε γ} (hp : Consumes p) : Consumes (p.bind f) := by
  intro s r c h
  obtain ⟨a, q, hpq, hf⟩ := bind_eq_done h
  obtain ⟨u, rfl⟩ := (f a).done_suffix hf
  have := hp _ _ _ hpq
  rw [List.length_append] at this
  omega

theorem ite {c : Prop} [Decidable c] {p q : Parser β ε α} (hp : Consumes p) (hq : Consumes q) :
    Consumes (if c then p else q) := by
  by_cases hc : c
  · rw [if_pos hc]
    exact hp
  · rw [if_neg hc]
    exact hq

theorem branch {f : β → Parser β ε α} (h : ∀ b, Consumes (f b)) : Consumes (branch f) := by
  intro s r a hs
  cases s with
  | nil => cases hs
  | cons b s => exact h b _ _ _ hs

end Consumes

section Line

theorem not_infix_of_notMem {x y : β} {l : List β} (h : x ∉ l) : ¬[x, y] <:+: l :=
  fun hpair => h (hpair.mem List.mem_cons_self)

/-- What is put around a text adds no occurrence of `x` followed by `y`. -/
theorem infix_append_left_iff {x y : β} {u l : List β} (h : x ∉ u) :
    [x, y] <:+: u ++ l ↔ [x, y] <:+: l := by
  induction u with
  | nil => rfl
  | cons a u ih =>
    have hx : x ≠ a := fun e => h (by simp [e])
    rw [List.cons_append, List.infix_cons_iff, List.cons_prefix_cons,
      ih (fun hm => h (List.mem_cons_of_mem _ hm))]
    simp [hx]

theorem infix_append_right_iff {x y : β} {l v : List β} (h : y ∉ v) :
    [x, y] <:+: l ++ v ↔ [x, y] <:+: l := by
  have hstart : ∀ l : List β, [y] <+: l ++ v ↔ [y] <+: l := by
    intro l
    cases l with
    | nil =>
      refine iff_of_false (fun hp => ?_) (fun hp => by simp at hp)
      exact h (hp.mem List.mem_cons_self)
    | cons b l => simp
  induction l with
  | nil =>
    refine iff_of_false (fun hi => ?_) (fun hi => by simp at hi)
    exact h (hi.mem (by simp))
  | cons a l ih =>
    rw [List.cons_append, List.infix_cons_iff, List.infix_cons_iff, List.cons_prefix_cons,
      List.cons_prefix_cons, hstart]
    exact or_congr Iff.rfl ih

variable [DecidableEq β]

/-- The input up to the first `x` followed by `y`, and the input after these two. -/
def splitLine (x y : β) : List β → Option (List β × List β)
  | [] => none
  | [_] => none
  | a :: b :: s =>
    if a = x ∧ b = y then some ([], s)
    else (splitLine x y (b :: s)).map (fun l => (a :: l.1, l.2))

theorem splitLine_eq {x y : β} : ∀ {s l r : List β}, splitLine x y s = some (l, r) →
    s = l ++ x :: y :: r
  | [], _, _, h => by simp [splitLine] at h
  | [_], _, _, h => by simp [splitLine] at h
  | a :: b :: s, l, r, h => by
    rw [splitLine] at h
    split at h
    · next hab => cases h; rw [hab.1, hab.2]; rfl
    · obtain ⟨⟨l', r'⟩, hl, he⟩ := Option.map_eq_some_iff.mp h
      cases he
      rw [splitLine_eq hl]
      rfl

theorem splitLine_append {x y : β} : ∀ {s l r : List β} (t : List β),
    splitLine x y s = some (l, r) → splitLine x y (s ++ t) = some (l, r ++ t)
  | [], _, _, _, h => by simp [splitLine] at h
  | [_], _, _, _, h => by simp [splitLine] at h
  | a :: b :: s, l, r, t, h => by
    rw [splitLine] at h
    rw [List.cons_append, List.cons_append, splitLine]
    split at h
    · next hab => cases h; rw [if_pos hab]
    · next hab =>
      obtain ⟨⟨l', r'⟩, hl, he⟩ := Option.map_eq_some_iff.mp h
      cases he
      have ih := splitLine_append t hl
      rw [List.cons_append] at ih
      rw [if_neg hab, ih]
      rfl

/-- A line holds no terminator. -/
theorem splitLine_unterminated {x y : β} : ∀ {s l r : List β},
    splitLine x y s = some (l, r) → ¬[x, y] <:+: l
  | [], _, _, h => by simp [splitLine] at h
  | [_], _, _, h => by simp [splitLine] at h
  | a :: b :: s, l, r, h => by
    rw [splitLine] at h
    split at h
    · cases h
      simp
    · next hab =>
      obtain ⟨⟨l', r'⟩, hl, he⟩ := Option.map_eq_some_iff.mp h
      cases he
      have ih := splitLine_unterminated hl
      rw [List.infix_cons_iff, List.cons_prefix_cons, not_or]
      refine ⟨fun hp => ?_, ih⟩
      -- the second byte of the line is the second byte of the input
      have hs := splitLine_eq hl
      cases l' with
      | nil => simp at hp
      | cons c l' =>
        rw [List.cons_append] at hs
        have hc := (List.cons_prefix_cons.mp hp.2).1
        exact hab ⟨hp.1.symm, (List.cons.inj hs).1.trans hc.symm⟩

/-- There is no line where there is no terminator. -/
theorem splitLine_eq_none {x y : β} : ∀ {s : List β}, splitLine x y s = none ↔ ¬[x, y] <:+: s
  | [] => by simp [splitLine]
  | [_] => by
    rw [splitLine, List.infix_cons_iff, List.cons_prefix_cons]
    simp
  | a :: b :: s => by
    rw [splitLine, List.infix_cons_iff, List.cons_prefix_cons, List.cons_prefix_cons, not_or]
    by_cases hab : a = x ∧ b = y
    · rw [if_pos hab]
      simp [hab]
    · rw [if_neg hab, Option.map_eq_none_iff, splitLine_eq_none]
      exact (and_iff_right (fun h => hab ⟨h.1.symm, h.2.1.symm⟩)).symm

/-- The first terminator of a line that holds none is the one after it. -/
theorem splitLine_terminated {x y : β} (hxy : x ≠ y) : ∀ {l : List β} (r : List β),
    ¬[x, y] <:+: l → splitLine x y (l ++ x :: y :: r) = some (l, r)
  | [], r, _ => by rw [List.nil_append, splitLine, if_pos ⟨rfl, rfl⟩]
  | [a], r, _ => by
    have ha : ¬(a = x ∧ x = y) := fun h => hxy h.2
    simp [splitLine, ha]
  | a :: b :: l, r, h => by
    rw [List.infix_cons_iff, not_or, List.cons_prefix_cons, List.cons_prefix_cons] at h
    have hab : ¬(a = x ∧ b = y) := fun e => h.1 ⟨e.1.symm, e.2.symm, List.nil_prefix⟩
    have ih := splitLine_terminated hxy r h.2
    rw [List.cons_append] at ih
    rw [List.cons_append, List.cons_append, splitLine, if_neg hab, ih]
    rfl

/-- A line, ended by `x` and `y`. -/
def line (x y : β) : Parser β ε (List β) where
  run s := match splitLine x y s with
    | some (l, r) => .done l r
    | none => .more
  done_append {s t a r} h := by
    split at h
    · next l r' hs => cases h; rw [splitLine_append t hs]
    · cases h
  fail_append h := by split at h <;> cases h
  done_suffix {s r a} h := by
    split at h
    · next l r' hs =>
      cases h
      exact ⟨a ++ [x, y], by rw [splitLine_eq hs]; simp⟩
    · cases h

theorem line_done {x y : β} {s l r : List β} (h : splitLine x y s = some (l, r)) :
    (line x y : Parser β ε (List β)).run s = .done l r := by
  unfold line; simp only [h]

theorem line_more {x y : β} {s : List β} (h : splitLine x y s = none) :
    (line x y : Parser β ε (List β)).run s = .more := by
  unfold line; simp only [h]

theorem line_eq_done {x y : β} {s l r : List β}
    (h : (line x y : Parser β ε (List β)).run s = .done l r) : splitLine x y s = some (l, r) := by
  cases hs : splitLine x y s with
  | none =>
    rw [line_more hs] at h
    cases h
  | some lr =>
    rw [line_done (l := lr.1) (r := lr.2) hs] at h
    cases h
    rfl

/-- A line takes its terminator off the input. -/
theorem Consumes.line (x y : β) : Consumes (line x y : Parser β ε (List β)) := by
  intro s r l h
  have hlen := congrArg List.length (splitLine_eq (line_eq_done h))
  simp at hlen
  omega

end Line

/-! Encodings. -/

/-- `p` reads `w` as `a` and leaves nothing over. -/
def Encodes (p : Parser β ε α) (a : α) (w : List β) : Prop := p.run w = .done a []

theorem Encodes.run_append {p : Parser β ε α} {a : α} {w : List β} (h : Encodes p a w)
    (t : List β) : p.run (w ++ t) = .done a t := p.done_append h

/-- An encoding is not seen before it is complete. -/
theorem Encodes.run_prefix {p : Parser β ε α} {a : α} {u v : List β} (h : Encodes p a (u ++ v))
    (hv : v ≠ []) : p.run u = .more := by
  cases hu : p.run u with
  | more => rfl
  | fail e =>
    have := p.fail_append (t := v) hu
    rw [h] at this
    cases this
  | done b r =>
    have := p.done_append (t := v) hu
    rw [h] at this
    injection this with _ hr
    exact absurd (List.append_eq_nil_iff.mp hr.symm).2 hv

theorem Encodes.pure (a : α) : Encodes (Parser.pure a : Parser β ε α) a [] := rfl

theorem Encodes.bind {p : Parser β ε α} {f : α → Parser β ε γ} {a : α} {c : γ} {u v : List β}
    (hp : Encodes p a u) (hf : Encodes (f a) c v) : Encodes (p.bind f) c (u ++ v) := by
  unfold Encodes
  rw [bind_done (hp.run_append v)]
  exact hf

theorem Encodes.bind_nil {p : Parser β ε α} {f : α → Parser β ε γ} {a : α} {c : γ} {w : List β}
    (hp : Encodes p a w) (hf : Encodes (f a) c []) : Encodes (p.bind f) c w := by
  unfold Encodes
  rw [bind_done hp]
  exact hf

theorem Encodes.times {p : Parser β ε α} {w : α → List β} :
    ∀ (as : List α), (∀ a ∈ as, Encodes p a (w a)) →
      Encodes (p.times as.length) as (as.flatMap w) := by
  intro as
  induction as with
  | nil =>
    intro h
    rfl
  | cons a as ih =>
    intro h
    rw [List.flatMap_cons, List.length_cons, Parser.times]
    apply Encodes.bind (h a (by simp))
    have hrest := ih (fun a' h' => h a' (by simp [h']))
    rw [← List.append_nil (as.flatMap w)]
    exact Encodes.bind hrest (Encodes.pure _)

theorem Encodes.after {p : Parser β ε α} {w : α → List β} (t : List β) :
    ∀ (as : List α), (∀ a ∈ as, Encodes p a (w a)) → After p as.length (as.flatMap w ++ t) t := by
  intro as
  induction as with
  | nil =>
    intro h
    exact .zero t
  | cons a as ih =>
    intro h
    rw [List.flatMap_cons, List.append_assoc]
    exact .succ ((h a (by simp)).run_append _) (ih (fun a' h' => h a' (by simp [h'])))

theorem Encodes.block [DecidableEq β] (w terminator : List β) (e : ε) :
    Encodes (Parser.block w.length terminator e) w (w ++ terminator) := by
  unfold Encodes
  rw [block_run, if_pos (by simp), List.take_of_length_le (by simp), List.drop_left, if_pos rfl]
  simp

theorem Encodes.collect {p : Parser β ε α} {w : α → List β} (f : List α → γ) (as : List α)
    (h : ∀ a ∈ as, Encodes p a (w a)) :
    Encodes (p.collect f [] as.length) (f as) (as.flatMap w) :=
  Encodes.bind_nil (Encodes.times as h) (Encodes.pure (f as))

end Parser

/-! Streams. -/

/-- How a stream ends for a parser: between two values, inside one, or with an
    error. -/
inductive End (ε : Type) where
  | clean
  | cut
  | failed (e : ε)
  deriving DecidableEq

/-- The values a parser reads off a stream one after the other, and how it ends. -/
inductive Drains (p : Parser β ε α) : List β → List α → End ε → Prop where
  | clean : p.run [] = .more → Drains p [] [] .clean
  | cut {s : List β} : s ≠ [] → p.run s = .more → Drains p s [] .cut
  | failed {s : List β} {e : ε} : p.run s = .fail e → Drains p s [] (.failed e)
  | next {s r : List β} {a : α} {as : List α} {d : End ε} :
      p.run s = .done a r → Drains p r as d → Drains p s (a :: as) d

namespace Drains
variable {p : Parser β ε α}

/-- The stream alone decides what is read off it. -/
theorem unique {s : List β} {as : List α} {d : End ε} (h : Drains p s as d) :
    ∀ {as' : List α} {d' : End ε}, Drains p s as' d' → as = as' ∧ d = d' := by
  induction h with
  | clean hr =>
    intro as' d' h'
    cases h' with
    | clean => exact ⟨rfl, rfl⟩
    | cut hne => exact absurd rfl hne
    | failed hf => rw [hr] at hf; cases hf
    | next hd => rw [hr] at hd; cases hd
  | cut hne hr =>
    intro as' d' h'
    cases h' with
    | clean => exact absurd rfl hne
    | cut => exact ⟨rfl, rfl⟩
    | failed hf => rw [hr] at hf; cases hf
    | next hd => rw [hr] at hd; cases hd
  | failed hf =>
    intro as' d' h'
    cases h' with
    | clean hr => rw [hr] at hf; cases hf
    | cut _ hr => rw [hr] at hf; cases hf
    | failed hf' => rw [hf] at hf'; cases hf'; exact ⟨rfl, rfl⟩
    | next hd => rw [hf] at hd; cases hd
  | next hd _ ih =>
    intro as' d' h'
    cases h' with
    | clean hr => rw [hr] at hd; cases hd
    | cut _ hr => rw [hr] at hd; cases hd
    | failed hf => rw [hf] at hd; cases hd
    | next hd' h'' =>
      rw [hd] at hd'
      cases hd'
      obtain ⟨rfl, rfl⟩ := ih h''
      exact ⟨rfl, rfl⟩

/-- What is left of a stream after its first value. -/
theorem of_done {s r : List β} {a : α} {as : List α} {d : End ε} (h : Drains p s as d)
    (hdone : p.run s = .done a r) : ∃ as', as = a :: as' ∧ Drains p r as' d := by
  cases h with
  | clean hmore => rw [hmore] at hdone; cases hdone
  | cut _ hmore => rw [hmore] at hdone; cases hdone
  | failed hfail => rw [hfail] at hdone; cases hdone
  | next hdone' hrest =>
    rw [hdone'] at hdone
    cases hdone
    exact ⟨_, rfl, hrest⟩

/-- Each value was read off somewhere. -/
theorem run_of_mem {s : List β} {as : List α} {d : End ε} (h : Drains p s as d) {a : α}
    (ha : a ∈ as) : ∃ s' r, p.run s' = .done a r := by
  induction h with
  | clean | cut | failed => cases ha
  | next hd _ ih =>
    rcases List.mem_cons.mp ha with rfl | ha
    · exact ⟨_, _, hd⟩
    · exact ih ha

/-- Encodings one after the other are read off one by one. -/
theorem append {w : α → List β} : ∀ {as : List α} {s : List β} {bs : List α} {d : End ε},
    (∀ a ∈ as, p.Encodes a (w a)) → Drains p s bs d → Drains p (as.flatMap w ++ s) (as ++ bs) d := by
  intro as
  induction as with
  | nil =>
    intro s bs d h hs
    exact hs
  | cons a as ih =>
    intro s bs d h hs
    rw [List.flatMap_cons, List.append_assoc]
    exact next ((h a (by simp)).run_append _) (ih (fun a' h' => h a' (by simp [h'])) hs)

/-- Where every value takes input, every stream is read to its end. -/
theorem exists_of_consumes (hp : p.run [] = .more)
    (hc : p.Consumes) : ∀ (n : Nat) (s : List β), s.length ≤ n → ∃ as d, Drains p s as d
  | n, s, hn => by
    cases hs : p.run s with
    | more =>
      by_cases he : s = []
      · subst he; exact ⟨[], .clean, clean hs⟩
      · exact ⟨[], .cut, cut he hs⟩
    | fail e => exact ⟨[], .failed e, failed hs⟩
    | done a r =>
      have hlt := hc _ _ _ hs
      -- the value has taken input, so the rest is shorter
      cases n with
      | zero => omega
      | succ n =>
        obtain ⟨as, d, h⟩ := exists_of_consumes hp hc n r (by omega)
        exact ⟨a :: as, d, next hs h⟩

/-- A cut through encodings leaves some of them whole, and at most one in part. -/
theorem take_flatMap (w : α → List β) : ∀ (as : List α) (m : Nat),
    m ≤ (as.flatMap w).length →
    (∃ pre post, as = pre ++ post ∧ (as.flatMap w).take m = pre.flatMap w) ∨
    (∃ pre a post u v, as = pre ++ a :: post ∧ w a = u ++ v ∧ u ≠ [] ∧ v ≠ [] ∧
      (as.flatMap w).take m = pre.flatMap w ++ u) := by
  intro as
  induction as with
  | nil =>
    intro m hm
    exact .inl ⟨[], [], rfl, by rw [List.flatMap_nil, List.take_nil]⟩
  | cons a as ih =>
    intro m hm
    rw [List.flatMap_cons] at hm ⊢
    by_cases hwhole : (w a).length ≤ m
    · have htake : (w a ++ as.flatMap w).take m = w a ++ (as.flatMap w).take (m - (w a).length) := by
        rw [List.take_append, List.take_of_length_le hwhole]
      rw [List.length_append] at hm
      rcases ih (m - (w a).length) (by omega) with
        ⟨pre, post, has, ht⟩ | ⟨pre, b, post, u, v, has, hb, hu, hv, ht⟩
      · exact .inl ⟨a :: pre, post, by rw [has]; rfl, by rw [htake, ht, List.flatMap_cons]⟩
      · refine .inr ⟨a :: pre, b, post, u, v, by rw [has]; rfl, hb, hu, hv, ?_⟩
        rw [htake, ht, List.flatMap_cons, List.append_assoc]
    · have htake : (w a ++ as.flatMap w).take m = (w a).take m :=
        List.take_append_of_le_length (by omega)
      rcases Nat.eq_zero_or_pos m with rfl | hpos
      · exact .inl ⟨[], a :: as, rfl, by rw [List.take_zero]; rfl⟩
      · refine .inr ⟨[], a, as, (w a).take m, (w a).drop m, rfl,
          (List.take_append_drop m (w a)).symm, ?_, ?_, ?_⟩
        · intro h
          rcases List.take_eq_nil_iff.mp h with h | h
          · omega
          · rw [h] at hwhole; simp at hwhole
        · intro h
          have := List.drop_eq_nil_iff.mp h
          omega
        · rw [htake]; rfl

end Drains

end Incremental
