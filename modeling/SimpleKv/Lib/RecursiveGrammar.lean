import SimpleKv.Lib.Grammar
import SimpleKv.Lib.Recursion

/- Grammars that mention themselves, as languages. Where the parser of the nested values is
   `fix F`, its language solves `g = G g`, `G` saying of languages what `F` does of parsers.
   The solution is unique on inputs of every length, since every nested value comes after some
   input, so any grammar that solves the equation is the language of `fix F` (`Parses.fix`). -/
namespace Incremental

variable {β ε α γ : Type}

namespace Grammar

/-- `g` and `g'` say the same of inputs shorter than `n`. -/
structure Agree (n : Nat) (g g' : Grammar β ε α) : Prop where
  word : ∀ {a : α} {w : List β}, w.length < n → (g.word a w ↔ g'.word a w)
  unfinished : ∀ {s : List β}, s.length < n → (g.unfinished s ↔ g'.unfinished s)
  wrong : ∀ {e : ε} {s : List β}, s.length < n → (g.wrong e s ↔ g'.wrong e s)

/-- No value has the empty word. -/
def Nonempty (g : Grammar β ε α) : Prop := ∀ a, ¬g.word a []

namespace Agree
variable {n : Nat} {g g' : Grammar β ε α}

theorem refl (n : Nat) (g : Grammar β ε α) : Agree n g g :=
  ⟨fun _ => Iff.rfl, fun _ => Iff.rfl, fun _ => Iff.rfl⟩

theorem zero (g g' : Grammar β ε α) : Agree 0 g g' :=
  ⟨fun h => absurd h (Nat.not_lt_zero _), fun h => absurd h (Nat.not_lt_zero _),
    fun h => absurd h (Nat.not_lt_zero _)⟩

theorem symm (h : Agree n g g') : Agree n g' g :=
  ⟨fun hw => (h.word hw).symm, fun hs => (h.unfinished hs).symm, fun hs => (h.wrong hs).symm⟩

theorem trans {g'' : Grammar β ε α} (h : Agree n g g') (h' : Agree n g' g'') : Agree n g g'' :=
  ⟨fun hw => (h.word hw).trans (h'.word hw), fun hs => (h.unfinished hs).trans (h'.unfinished hs),
    fun hs => (h.wrong hs).trans (h'.wrong hs)⟩

/-- What comes after a word may agree on one symbol less. -/
theorem after {k k' : α → Grammar β ε γ} (hg : g.Nonempty) (h : ∀ a, Agree n (k a) (k' a)) :
    Agree (n + 1) (g.seq k) (g.seq k') := by
  have shorter : ∀ {a : α} {u v : List β}, g.word a u → (u ++ v).length < n + 1 → v.length < n := by
    intro a u v hu hlen
    have hpos : u ≠ [] := fun heq => hg a (heq ▸ hu)
    have := List.length_pos_iff.mpr hpos
    rw [List.length_append] at hlen
    omega
  refine ⟨fun {c w} hlen => ?_, fun {s} hlen => ?_, fun {e s} hlen => ?_⟩
  · refine exists_congr fun a => exists_congr fun u => exists_congr fun v => and_congr_right ?_
    intro hu
    refine and_congr_left ?_
    rintro rfl
    exact (h a).word (shorter hu hlen)
  · refine or_congr_right (exists_congr fun a => exists_congr fun u => exists_congr fun v =>
      and_congr_right ?_)
    intro hu
    refine and_congr_left ?_
    rintro rfl
    exact (h a).unfinished (shorter hu hlen)
  · refine or_congr_right (exists_congr fun a => exists_congr fun u => exists_congr fun v =>
      and_congr_right ?_)
    intro hu
    refine and_congr_left ?_
    rintro rfl
    exact (h a).wrong (shorter hu hlen)

theorem words (h : Agree n g g') {as : List α} {w : List β} (hw : Words g.word as w) :
    w.length < n → Words g'.word as w := by
  induction hw with
  | nil => exact fun _ => .nil
  | cons hu _ ih =>
    intro hlen
    rw [List.length_append] at hlen
    exact .cons ((h.word (by omega)).mp hu) (ih (by omega))

theorem words_iff (h : Agree n g g') {as : List α} {w : List β} (hlen : w.length < n) :
    Words g.word as w ↔ Words g'.word as w :=
  ⟨fun hw => h.words hw hlen, fun hw => h.symm.words hw hlen⟩

theorem collect (h : Agree n g g') (f : List α → γ) (as : List α) (k : Nat) :
    Agree n (g.collect f as k) (g'.collect f as k) := by
  refine ⟨fun {c w} hlen => ?_, fun {s} hlen => ?_, fun {e s} hlen => ?_⟩
  · refine exists_congr fun bs => and_congr_right fun _ => and_congr_left fun _ => ?_
    exact h.words_iff hlen
  · refine exists_congr fun bs => exists_congr fun u => exists_congr fun v =>
      and_congr_right fun _ => ?_
    rw [← and_assoc, ← and_assoc]
    refine and_congr_left ?_
    rintro rfl
    rw [List.length_append] at hlen
    exact and_congr (h.words_iff (by omega)) (h.unfinished (by omega))
  · refine exists_congr fun bs => exists_congr fun u => exists_congr fun v =>
      and_congr_right fun _ => ?_
    rw [← and_assoc, ← and_assoc]
    refine and_congr_left ?_
    rintro rfl
    rw [List.length_append] at hlen
    exact and_congr (h.words_iff (by omega)) (h.wrong (by omega))

theorem ite {c : Prop} [Decidable c] {k k' : Grammar β ε α} (h : Agree n g g')
    (h' : Agree n k k') : Agree n (if c then g else k) (if c then g' else k') := by
  by_cases hc : c
  · simp only [hc, if_true]
    exact h
  · simp only [hc, if_false]
    exact h'

end Agree

/-- In `G g`, the words of `g` come after some input. -/
def Guarded (G : Grammar β ε α → Grammar β ε α) : Prop :=
  ∀ n g g', Agree n g g' → Agree (n + 1) (G g) (G g')

/-- The language of the parser that waits forever. -/
def stall : Grammar β ε α where
  word _ _ := False
  unfinished _ := True
  wrong _ _ := False

def unroll (G : Grammar β ε α → Grammar β ε α) : Nat → Grammar β ε α
  | 0 => stall
  | n+1 => G (unroll G n)

/-- Unrolled often enough, `G` says what a solution says. -/
theorem Guarded.unroll_agree {G : Grammar β ε α → Grammar β ε α} (hG : Guarded G)
    {g : Grammar β ε α} (hg : ∀ n, Agree n (G g) g) : ∀ n, Agree n (unroll G n) g
  | 0 => .zero _ _
  | n+1 => (hG n _ _ (hG.unroll_agree hg n)).trans (hg (n + 1))

/-- The first symbol chooses the grammar, and is left in the input. -/
def branch (f : β → Grammar β ε α) : Grammar β ε α where
  word a w := ∃ b v, w = b :: v ∧ (f b).word a w
  unfinished s := s = [] ∨ ∃ b v, s = b :: v ∧ (f b).unfinished s
  wrong e s := ∃ b v, s = b :: v ∧ (f b).wrong e s

theorem Agree.branch {n : Nat} {f f' : β → Grammar β ε α} (h : ∀ b, Agree n (f b) (f' b)) :
    Agree n (branch f) (branch f') := by
  refine ⟨fun {a w} hlen => ?_, fun {s} hlen => ?_, fun {e s} hlen => ?_⟩
  · exact exists_congr fun b => exists_congr fun v => and_congr_right fun _ => (h b).word hlen
  · refine or_congr_right (exists_congr fun b => exists_congr fun v => and_congr_right fun _ => ?_)
    exact (h b).unfinished hlen
  · exact exists_congr fun b => exists_congr fun v => and_congr_right fun _ => (h b).wrong hlen

/-- One value, without any input. -/
def pure (c : α) : Grammar β ε α where
  word a w := a = c ∧ w = []
  unfinished _ := False
  wrong _ _ := False

def throw (e : ε) : Grammar β ε α where
  word _ _ := False
  unfinished _ := False
  wrong e' _ := e' = e

/-- A line, its terminator `x` followed by `y`, of which `value` makes the value. -/
def lineOf (x y : β) (value : List β → Except ε α) : Grammar β ε α where
  word a w := ∃ data, value data = .ok a ∧ ¬[x, y] <:+: data ∧ w = data ++ [x, y]
  unfinished s := ¬[x, y] <:+: s
  wrong e s := ∃ data r, value data = .error e ∧ ¬[x, y] <:+: data ∧ s = data ++ x :: y :: r

theorem lineOf_nonempty (x y : β) (value : List β → Except ε α) : (lineOf x y value).Nonempty := by
  intro a hw
  obtain ⟨data, _, _, heq⟩ := hw
  simp at heq

theorem seq_nonempty {g : Grammar β ε α} (hg : g.Nonempty) (k : α → Grammar β ε γ) :
    (g.seq k).Nonempty := by
  intro c hw
  obtain ⟨a, u, v, hu, _, heq⟩ := hw
  obtain ⟨rfl, _⟩ := List.append_eq_nil_iff.mp heq.symm
  exact hg a hu

theorem throw_nonempty (e : ε) : (throw e : Grammar β ε α).Nonempty := fun _ hw => hw

/-- `n` symbols and a terminator. -/
def block (n : Nat) (terminator : List β) (e : ε) : Grammar β ε (List β) where
  word a w := a.length = n ∧ w = a ++ terminator
  unfinished s := s.length < n + terminator.length
  wrong e' s := e' = e ∧ ∃ a t r : List β, a.length = n ∧ t.length = terminator.length ∧
    t ≠ terminator ∧ s = a ++ (t ++ r)

end Grammar

namespace Parses
open Grammar

theorem stall : Parses (Parser.stall : Parser β ε α) Grammar.stall where
  done_iff {s r a} := by
    refine iff_of_false (fun h => by cases h) ?_
    rintro ⟨w, hw, _⟩
    exact hw
  more_iff {s} := iff_of_true rfl trivial
  fail_iff {s e} := iff_of_false (fun h => by cases h) id

theorem pure (c : α) : Parses (Parser.pure c : Parser β ε α) (Grammar.pure c) where
  done_iff {s r a} := by
    refine ⟨fun h => ?_, ?_⟩
    · cases h
      exact ⟨[], ⟨rfl, rfl⟩, rfl⟩
    · rintro ⟨w, ⟨rfl, rfl⟩, rfl⟩
      rfl
  more_iff {s} := iff_of_false (fun h => by cases h) id
  fail_iff {s e} := iff_of_false (fun h => by cases h) id

theorem throw (e : ε) : Parses (Parser.throw e : Parser β ε α) (Grammar.throw e) where
  done_iff {s r a} := by
    refine iff_of_false (fun h => by cases h) ?_
    rintro ⟨w, hw, _⟩
    exact hw
  more_iff {s} := iff_of_false (fun h => by cases h) id
  fail_iff {s e'} := by
    refine ⟨fun h => ?_, ?_⟩
    · cases h
      rfl
    · rintro rfl
      rfl

theorem ite {c : Prop} [Decidable c] {p q : Parser β ε α} {g k : Grammar β ε α}
    (h : Parses p g) (h' : Parses q k) : Parses (if c then p else q) (if c then g else k) := by
  by_cases hc : c
  · simp only [hc, if_true]
    exact h
  · simp only [hc, if_false]
    exact h'

/-- The parsers chosen leave the first symbol in the input, so none may take nothing. -/
theorem branch {f : β → Parser β ε α} {k : β → Grammar β ε α} (hk : ∀ b, (k b).Nonempty)
    (h : ∀ b, Parses (f b) (k b)) : Parses (Parser.branch f) (Grammar.branch k) where
  done_iff {s r a} := by
    cases s with
    | nil =>
      refine iff_of_false (fun hrun => by cases hrun) ?_
      rintro ⟨w, ⟨b, v, rfl, _⟩, heq⟩
      cases heq
    | cons b s =>
      refine (h b).done_iff.trans ⟨?_, ?_⟩
      · rintro ⟨w, hw, heq⟩
        cases w with
        | nil => exact absurd hw (hk b a)
        | cons b' v =>
          cases (List.cons.inj heq).1
          exact ⟨b :: v, ⟨b, v, rfl, hw⟩, heq⟩
      · rintro ⟨w, ⟨b', v, rfl, hw⟩, heq⟩
        cases (List.cons.inj heq).1
        exact ⟨b :: v, hw, heq⟩
  more_iff {s} := by
    cases s with
    | nil => exact iff_of_true rfl (.inl rfl)
    | cons b s =>
      refine (h b).more_iff.trans ⟨fun hs => .inr ⟨b, s, rfl, hs⟩, ?_⟩
      rintro (heq | ⟨b', v, heq, hs⟩)
      · cases heq
      · cases heq
        exact hs
  fail_iff {s e} := by
    cases s with
    | nil =>
      refine iff_of_false (fun hrun => by cases hrun) ?_
      rintro ⟨b, v, heq, _⟩
      cases heq
    | cons b s =>
      refine (h b).fail_iff.trans ⟨fun hs => ⟨b, s, rfl, hs⟩, ?_⟩
      rintro ⟨b', v, heq, hs⟩
      cases heq
      exact hs

section Line
variable [DecidableEq β] {x y : β} {value : List β → Except ε α}

theorem lineOf_run {s data r : List β} (hs : Parser.splitLine x y s = some (data, r)) :
    ((Parser.line x y).bind (fun data => Parser.ofExcept (value data))).run s =
      match value data with
      | .ok a => .done a r
      | .error e => .fail e := by
  rw [Parser.bind_done (Parser.line_done hs)]
  cases value data <;> rfl

theorem lineOf (hxy : x ≠ y) :
    Parses ((Parser.line x y).bind (fun data => Parser.ofExcept (value data)))
      (Grammar.lineOf x y value) where
  done_iff {s r a} := by
    refine ⟨fun hrun => ?_, ?_⟩
    · obtain ⟨data, q, hline, hread⟩ := Parser.bind_eq_done hrun
      obtain ⟨hvalue, rfl⟩ := Parser.ofExcept_eq_done hread
      have hs := Parser.line_eq_done hline
      refine ⟨data ++ [x, y], ⟨data, hvalue, Parser.splitLine_unterminated hs, rfl⟩, ?_⟩
      rw [Parser.splitLine_eq hs, List.append_assoc]
      rfl
    · rintro ⟨w, ⟨data, hvalue, hdata, rfl⟩, rfl⟩
      rw [List.append_assoc]
      apply (lineOf_run (Parser.splitLine_terminated hxy r hdata)).trans
      rw [hvalue]
  more_iff {s} := by
    show _ ↔ ¬[x, y] <:+: s
    rw [← Parser.splitLine_eq_none]
    cases hs : Parser.splitLine x y s with
    | none => exact iff_of_true (Parser.bind_more (Parser.line_more hs)) rfl
    | some p =>
      obtain ⟨data, r⟩ := p
      rw [lineOf_run hs]
      refine iff_of_false ?_ (by simp)
      cases value data <;> simp
  fail_iff {s e} := by
    refine ⟨fun hrun => ?_, ?_⟩
    · cases hs : Parser.splitLine x y s with
      | none =>
        rw [Parser.bind_more (Parser.line_more hs)] at hrun
        cases hrun
      | some p =>
        obtain ⟨data, r⟩ := p
        rw [lineOf_run hs] at hrun
        cases hvalue : value data with
        | ok a =>
          rw [hvalue] at hrun
          cases hrun
        | error e' =>
          rw [hvalue] at hrun
          cases hrun
          exact ⟨data, r, hvalue, Parser.splitLine_unterminated hs, Parser.splitLine_eq hs⟩
    · rintro ⟨data, r, hvalue, hdata, rfl⟩
      rw [lineOf_run (Parser.splitLine_terminated hxy r hdata), hvalue]

end Line

/-- Where there are enough symbols, they are the block and its end. -/
theorem block_split (n m : Nat) {s : List β} (h : n + m ≤ s.length) :
    ∃ a t r : List β, a.length = n ∧ t.length = m ∧ s = a ++ (t ++ r) := by
  refine ⟨s.take n, (s.drop n).take m, (s.drop n).drop m, ?_, ?_, ?_⟩
  · rw [List.length_take]
    omega
  · rw [List.length_take, List.length_drop]
    omega
  · rw [List.take_append_drop, List.take_append_drop]

section Block
variable [DecidableEq β] {n : Nat} {terminator : List β} {e : ε}

theorem block_append {a t : List β} (ha : a.length = n) (ht : t.length = terminator.length)
    (r : List β) : (Parser.block n terminator e).run (a ++ (t ++ r)) =
      if t = terminator then .done a r else .fail e := by
  subst ha
  have hlen : a.length + terminator.length ≤ (a ++ (t ++ r)).length := by
    simp only [List.length_append]
    omega
  have hend : ((a ++ (t ++ r)).take (a.length + terminator.length)).drop a.length = t := by
    rw [List.take_length_add_append, List.drop_left, ← ht, List.take_left]
  have hrest : (a ++ (t ++ r)).drop (a.length + terminator.length) = r := by
    rw [List.drop_length_add_append, ← ht, List.drop_left]
  rw [Parser.block_run, if_pos hlen, hend, hrest, List.take_left]

theorem block (n : Nat) (terminator : List β) (e : ε) :
    Parses (Parser.block n terminator e) (Grammar.block n terminator e) := by
  have short : ∀ {s : List β}, s.length < n + terminator.length →
      (Parser.block n terminator e).run s = .more := by
    intro s hs
    rw [Parser.block_run, if_neg (Nat.not_le.mpr hs)]
  refine ⟨fun {s r a} => ⟨fun hrun => ?_, ?_⟩, fun {s} => ⟨fun hrun => ?_, short⟩,
    fun {s e'} => ⟨fun hrun => ?_, ?_⟩⟩
  · rcases Nat.lt_or_ge s.length (n + terminator.length) with hs | hs
    · rw [short hs] at hrun
      cases hrun
    · obtain ⟨a', t, r', ha, ht, rfl⟩ := block_split n terminator.length hs
      rw [block_append ha ht] at hrun
      split at hrun
      · next heq =>
        cases hrun
        exact ⟨a ++ terminator, ⟨ha, rfl⟩, by rw [heq, List.append_assoc]⟩
      · cases hrun
  · rintro ⟨w, ⟨ha, rfl⟩, rfl⟩
    rw [List.append_assoc, block_append ha rfl, if_pos rfl]
  · show s.length < n + terminator.length
    by_contra hs
    obtain ⟨a', t, r', ha, ht, rfl⟩ := block_split n terminator.length (Nat.le_of_not_lt hs)
    rw [block_append ha ht] at hrun
    split at hrun <;> cases hrun
  · rcases Nat.lt_or_ge s.length (n + terminator.length) with hs | hs
    · rw [short hs] at hrun
      cases hrun
    · obtain ⟨a', t, r', ha, ht, rfl⟩ := block_split n terminator.length hs
      rw [block_append ha ht] at hrun
      split at hrun
      · cases hrun
      · next hne =>
        cases hrun
        exact ⟨rfl, a', t, r', ha, ht, hne, rfl⟩
  · rintro ⟨rfl, a', t, r', ha, ht, hne, rfl⟩
    rw [block_append ha ht, if_neg hne]

end Block

/-- The values read off an input one after the other are words one after the other. -/
theorem after_iff {p : Parser β ε α} {g : Grammar β ε α} (h : Parses p g) {k : Nat} {s t : List β} :
    Parser.After p k s t ↔ ∃ as w, as.length = k ∧ Words g.word as w ∧ s = w ++ t := by
  constructor
  · intro hafter
    induction hafter with
    | zero s => exact ⟨[], [], rfl, .nil, rfl⟩
    | @succ k s r t a hs _ ih =>
      obtain ⟨u, hu, rfl⟩ := h.done_iff.mp hs
      obtain ⟨as, w, hlen, hw, rfl⟩ := ih
      exact ⟨a :: as, u ++ w, by rw [List.length_cons, hlen], .cons hu hw,
        (List.append_assoc u w t).symm⟩
  · rintro ⟨as, w, rfl, hw, rfl⟩
    induction hw with
    | nil => exact .zero t
    | cons hu _ ih =>
      rw [List.append_assoc]
      exact .succ (h.run_append hu _) ih

section Fix
variable {F : Parser β ε α → Parser β ε α} {G : Grammar β ε α → Grammar β ε α}

theorem unroll (h : ∀ p g, Parses p g → Parses (F p) (G g)) :
    ∀ n, Parses (Parser.unroll F n) (Grammar.unroll G n)
  | 0 => stall
  | n+1 => h _ _ (unroll h n)

/-- The language of `fix F` is what solves the equation. -/
theorem fix (hF : Parser.Guarded F) (hG : Grammar.Guarded G)
    (h : ∀ p g, Parses p g → Parses (F p) (G g)) {g : Grammar β ε α} (hg : ∀ n, Agree n (G g) g) :
    Parses (Parser.fix hF) g where
  done_iff {s r a} := by
    have hagree := hG.unroll_agree hg (s.length + 1)
    refine (unroll h (s.length + 1)).done_iff.trans (exists_congr fun w => and_congr_left ?_)
    intro heq
    apply hagree.word
    rw [heq, List.length_append]
    omega
  more_iff {s} := (unroll h (s.length + 1)).more_iff.trans
    ((hG.unroll_agree hg (s.length + 1)).unfinished (Nat.lt_succ_self _))
  fail_iff {s e} := (unroll h (s.length + 1)).fail_iff.trans
    ((hG.unroll_agree hg (s.length + 1)).wrong (Nat.lt_succ_self _))

end Fix

end Parses

end Incremental
