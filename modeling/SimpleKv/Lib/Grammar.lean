import SimpleKv.Lib.Incremental

/- The language of an incremental parser. A `Grammar` gives the words that stand for each
   value, the inputs that end inside a word (`unfinished`), and the inputs of which a complete
   part is none a word can have there (`wrong`, with the error that reports it). `Parses p g`:
   the parser `p` answers by `g`, each answer in both directions. The rules follow the
   combinators, and `longest` is about the words read off a stream one after the other. -/
namespace Incremental

variable {β ε α γ : Type}

structure Grammar (β ε α : Type) where
  word : α → List β → Prop
  unfinished : List β → Prop
  wrong : ε → List β → Prop

/-- Words one after the other. -/
inductive Words (word : α → List β → Prop) : List α → List β → Prop where
  | nil : Words word [] []
  | cons {a : α} {as : List α} {u v : List β} :
      word a u → Words word as v → Words word (a :: as) (u ++ v)

theorem Words.append {word : α → List β → Prop} {as bs : List α} {u v : List β}
    (h : Words word as u) (h' : Words word bs v) : Words word (as ++ bs) (u ++ v) := by
  induction h with
  | nil => exact h'
  | cons hw _ ih =>
    rw [List.cons_append, List.append_assoc]
    exact .cons hw ih

theorem Words.snoc {word : α → List β → Prop} {as : List α} {a : α} {u v : List β}
    (h : Words word as u) (ha : word a v) : Words word (as ++ [a]) (u ++ v) := by
  have hlast := h.append (.cons ha .nil)
  rwa [List.append_nil] at hlast

namespace Grammar

/-- A word of `g`, and one of the grammar its value chooses. -/
def seq (g : Grammar β ε α) (h : α → Grammar β ε γ) : Grammar β ε γ where
  word c w := ∃ a u v, g.word a u ∧ (h a).word c v ∧ w = u ++ v
  unfinished s := g.unfinished s ∨ ∃ a u v, g.word a u ∧ (h a).unfinished v ∧ s = u ++ v
  wrong e s := g.wrong e s ∨ ∃ a u v, g.word a u ∧ (h a).wrong e v ∧ s = u ++ v

/-- `n` words of `g`, whose values come after `as`. -/
def collect (g : Grammar β ε α) (f : List α → γ) (as : List α) (n : Nat) : Grammar β ε γ where
  word c w := ∃ bs, bs.length = n ∧ Words g.word bs w ∧ c = f (as ++ bs)
  unfinished s := ∃ bs u v, bs.length < n ∧ Words g.word bs u ∧ g.unfinished v ∧ s = u ++ v
  wrong e s := ∃ bs u v, bs.length < n ∧ Words g.word bs u ∧ g.wrong e v ∧ s = u ++ v

end Grammar

structure Parses (p : Parser β ε α) (g : Grammar β ε α) : Prop where
  done_iff : ∀ {s r : List β} {a : α}, p.run s = .done a r ↔ ∃ w, g.word a w ∧ s = w ++ r
  more_iff : ∀ {s : List β}, p.run s = .more ↔ g.unfinished s
  fail_iff : ∀ {s : List β} {e : ε}, p.run s = .fail e ↔ g.wrong e s

namespace Parses
variable {p : Parser β ε α} {g : Grammar β ε α}

theorem run_append (h : Parses p g) {a : α} {w : List β} (hw : g.word a w) (r : List β) :
    p.run (w ++ r) = .done a r := h.done_iff.mpr ⟨w, hw, rfl⟩

theorem bind {f : α → Parser β ε γ} {k : α → Grammar β ε γ} (h : Parses p g)
    (hf : ∀ a, Parses (f a) (k a)) : Parses (p.bind f) (g.seq k) where
  done_iff {s r c} := by
    refine ⟨fun hrun => ?_, fun hw => ?_⟩
    · obtain ⟨a, q, hp, hfa⟩ := Parser.bind_eq_done hrun
      obtain ⟨u, hu, rfl⟩ := h.done_iff.mp hp
      obtain ⟨v, hv, rfl⟩ := (hf a).done_iff.mp hfa
      exact ⟨u ++ v, ⟨a, u, v, hu, hv, rfl⟩, (List.append_assoc u v r).symm⟩
    · obtain ⟨w, ⟨a, u, v, hu, hv, rfl⟩, rfl⟩ := hw
      rw [List.append_assoc, Parser.bind_done (h.run_append hu (v ++ r))]
      exact (hf a).run_append hv r
  more_iff {s} := by
    refine ⟨fun hrun => ?_, fun hw => ?_⟩
    · cases hp : p.run s with
      | more => exact .inl (h.more_iff.mp hp)
      | fail e => rw [Parser.bind_fail hp] at hrun; cases hrun
      | done a q =>
        rw [Parser.bind_done hp] at hrun
        obtain ⟨u, hu, rfl⟩ := h.done_iff.mp hp
        exact .inr ⟨a, u, q, hu, (hf a).more_iff.mp hrun, rfl⟩
    · rcases hw with hs | ⟨a, u, v, hu, hv, rfl⟩
      · exact Parser.bind_more (h.more_iff.mpr hs)
      · rw [Parser.bind_done (h.run_append hu v)]
        exact (hf a).more_iff.mpr hv
  fail_iff {s e} := by
    refine ⟨fun hrun => ?_, fun hw => ?_⟩
    · cases hp : p.run s with
      | more => rw [Parser.bind_more hp] at hrun; cases hrun
      | fail e' =>
        rw [Parser.bind_fail hp] at hrun
        cases hrun
        exact .inl (h.fail_iff.mp hp)
      | done a q =>
        rw [Parser.bind_done hp] at hrun
        obtain ⟨u, hu, rfl⟩ := h.done_iff.mp hp
        exact .inr ⟨a, u, q, hu, (hf a).fail_iff.mp hrun, rfl⟩
    · rcases hw with hs | ⟨a, u, v, hu, hv, rfl⟩
      · exact Parser.bind_fail (h.fail_iff.mpr hs)
      · rw [Parser.bind_done (h.run_append hu v)]
        exact (hf a).fail_iff.mpr hv

/-- Another way to put the same grammar. -/
theorem congr {g' : Grammar β ε α} (h : Parses p g) (hword : ∀ a w, g.word a w ↔ g'.word a w)
    (hunfinished : ∀ s, g.unfinished s ↔ g'.unfinished s)
    (hwrong : ∀ e s, g.wrong e s ↔ g'.wrong e s) : Parses p g' where
  done_iff {s r a} := by simp only [h.done_iff, hword]
  more_iff {s} := h.more_iff.trans (hunfinished s)
  fail_iff {s e} := h.fail_iff.trans (hwrong e s)

section Collect
variable {f : List α → γ}

theorem collect_zero (as : List α) : Parses (p.collect f as 0) (g.collect f as 0) where
  done_iff {s r c} := by
    rw [Parser.collect_zero]
    refine ⟨fun heq => ?_, fun hw => ?_⟩
    · cases heq
      exact ⟨[], ⟨[], rfl, .nil, by rw [List.append_nil]⟩, rfl⟩
    · obtain ⟨w, ⟨bs, hlen, hw, rfl⟩, rfl⟩ := hw
      cases List.length_eq_zero_iff.mp hlen
      cases hw
      rw [List.append_nil, List.nil_append]
  more_iff {s} := by
    rw [Parser.collect_zero]
    refine ⟨fun heq => ?_, fun hw => ?_⟩
    · cases heq
    · obtain ⟨bs, _, _, hlen, _⟩ := hw
      omega
  fail_iff {s e} := by
    rw [Parser.collect_zero]
    refine ⟨fun heq => ?_, fun hw => ?_⟩
    · cases heq
    · obtain ⟨bs, _, _, hlen, _⟩ := hw
      omega

/-- One word, and the others after it. -/
theorem collect_succ (h : Parses p g) {as : List α} {n : Nat}
    (ih : ∀ a, Parses (p.collect f (as ++ [a]) n) (g.collect f (as ++ [a]) n)) :
    Parses (p.collect f as (n + 1)) (g.collect f as (n + 1)) where
  done_iff {s r c} := by
    refine ⟨fun hrun => ?_, fun hw => ?_⟩
    · cases hp : p.run s with
      | more => rw [Parser.collect_more hp] at hrun; cases hrun
      | fail e => rw [Parser.collect_fail hp] at hrun; cases hrun
      | done a q =>
        rw [Parser.collect_done hp] at hrun
        obtain ⟨u, hu, rfl⟩ := h.done_iff.mp hp
        obtain ⟨v, ⟨bs, hlen, hbs, rfl⟩, rfl⟩ := (ih a).done_iff.mp hrun
        refine ⟨u ++ v, ⟨a :: bs, ?_, .cons hu hbs, ?_⟩, (List.append_assoc u v r).symm⟩
        · rw [List.length_cons, hlen]
        · rw [List.append_assoc, List.singleton_append]
    · obtain ⟨w, ⟨bs, hlen, hbs, rfl⟩, rfl⟩ := hw
      cases hbs with
      | nil => cases hlen
      | @cons a bs u v hu hbs =>
        rw [List.append_assoc, Parser.collect_done (h.run_append hu (v ++ r))]
        refine (ih a).done_iff.mpr ⟨v, ⟨bs, Nat.succ.inj hlen, hbs, ?_⟩, rfl⟩
        rw [List.append_assoc, List.singleton_append]
  more_iff {s} := by
    refine ⟨fun hrun => ?_, fun hw => ?_⟩
    · cases hp : p.run s with
      | more => exact ⟨[], [], s, Nat.succ_pos n, .nil, h.more_iff.mp hp, rfl⟩
      | fail e => rw [Parser.collect_fail hp] at hrun; cases hrun
      | done a q =>
        rw [Parser.collect_done hp] at hrun
        obtain ⟨u, hu, rfl⟩ := h.done_iff.mp hp
        obtain ⟨bs, v, t, hlen, hbs, ht, rfl⟩ := (ih a).more_iff.mp hrun
        exact ⟨a :: bs, u ++ v, t, Nat.succ_lt_succ hlen, .cons hu hbs, ht,
          (List.append_assoc u v t).symm⟩
    · obtain ⟨bs, w, t, hlen, hbs, ht, rfl⟩ := hw
      cases hbs with
      | nil => exact Parser.collect_more (h.more_iff.mpr ht)
      | @cons a bs u v hu hbs =>
        rw [List.append_assoc, Parser.collect_done (h.run_append hu (v ++ t))]
        exact (ih a).more_iff.mpr ⟨bs, v, t, Nat.lt_of_succ_lt_succ hlen, hbs, ht, rfl⟩
  fail_iff {s e} := by
    refine ⟨fun hrun => ?_, fun hw => ?_⟩
    · cases hp : p.run s with
      | more => rw [Parser.collect_more hp] at hrun; cases hrun
      | fail e' =>
        rw [Parser.collect_fail hp] at hrun
        cases hrun
        exact ⟨[], [], s, Nat.succ_pos n, .nil, h.fail_iff.mp hp, rfl⟩
      | done a q =>
        rw [Parser.collect_done hp] at hrun
        obtain ⟨u, hu, rfl⟩ := h.done_iff.mp hp
        obtain ⟨bs, v, t, hlen, hbs, ht, rfl⟩ := (ih a).fail_iff.mp hrun
        exact ⟨a :: bs, u ++ v, t, Nat.succ_lt_succ hlen, .cons hu hbs, ht,
          (List.append_assoc u v t).symm⟩
    · obtain ⟨bs, w, t, hlen, hbs, ht, rfl⟩ := hw
      cases hbs with
      | nil => exact Parser.collect_fail (h.fail_iff.mpr ht)
      | @cons a bs u v hu hbs =>
        rw [List.append_assoc, Parser.collect_done (h.run_append hu (v ++ t))]
        exact (ih a).fail_iff.mpr ⟨bs, v, t, Nat.lt_of_succ_lt_succ hlen, hbs, ht, rfl⟩

theorem collect (h : Parses p g) : ∀ (n : Nat) (as : List α),
    Parses (p.collect f as n) (g.collect f as n)
  | 0, as => collect_zero as
  | n+1, as => h.collect_succ (fun a => h.collect n (as ++ [a]))

/-- The words read first, and what is left of the collection. -/
theorem run_collect (h : Parses p g) {bs : List α} {w : List β} (hw : Words g.word bs w) (n : Nat)
    (s : List β) : ∀ as : List α,
    (p.collect f as (bs.length + n)).run (w ++ s) = (p.collect f (as ++ bs) n).run s := by
  induction hw with
  | nil => simp
  | @cons b bs u v hb _ ih =>
    intro as
    rw [List.length_cons, Nat.add_right_comm, List.append_assoc,
      Parser.collect_done (h.run_append hb (v ++ s)), ih, List.append_assoc, List.singleton_append]

end Collect

/-- Words that are followed by no further one are the longest words the input begins with. -/
theorem longest (h : Parses p g) {as : List α} {w r : List β} (hw : Words g.word as w)
    (hr : g.unfinished r ∨ ∃ e, g.wrong e r) {as' : List α} {w' : List β}
    (hw' : Words g.word as' w') : w' <+: w ++ r → as' <+: as ∧ w' <+: w := by
  induction hw' generalizing as w with
  | nil => exact fun _ => ⟨List.nil_prefix, List.nil_prefix⟩
  | @cons a' as' u' v' hu' hv' ih =>
    rintro ⟨t, ht⟩
    rw [List.append_assoc] at ht
    have hrun := h.run_append hu' (v' ++ t)
    rw [ht] at hrun
    cases hw with
    | nil =>
      -- what is left does not begin with a word
      rw [List.nil_append] at hrun
      rcases hr with hr | ⟨e, hr⟩
      · rw [h.more_iff.mpr hr] at hrun
        cases hrun
      · rw [h.fail_iff.mpr hr] at hrun
        cases hrun
    | @cons a as u v hu hv =>
      rw [List.append_assoc, h.run_append hu (v ++ r)] at hrun
      injection hrun with ha hrest
      subst ha
      have hwhole : u' = u := by
        rw [← hrest, List.append_assoc] at ht
        exact List.append_cancel_right ht
      subst hwhole
      obtain ⟨has, hprefix⟩ := ih hv ⟨t, hrest.symm⟩
      exact ⟨List.cons_prefix_cons.mpr ⟨rfl, has⟩, (List.prefix_append_right_inj u').mpr hprefix⟩

/-- The same values read off one input are the same words of it. -/
theorem rest_unique (h : Parses p g) {as : List α} {w w' r r' : List β} (hw : Words g.word as w)
    (hw' : Words g.word as w') (heq : w ++ r = w' ++ r') : r = r' := by
  have hrun := h.run_collect (f := id) hw 0 r []
  have hrun' := h.run_collect (f := id) hw' 0 r' []
  rw [← heq, hrun, Parser.collect_zero, Parser.collect_zero] at hrun'
  injection hrun'

end Parses

end Incremental
