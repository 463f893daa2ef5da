import Mathlib.Logic.Function.Basic
import Mathlib.Order.Defs.PartialOrder

/- Maps whose bindings expire. A binding may have a deadline, and is visible strictly
   before it; an expired binding may linger in the map or be gone, and nobody who
   looks at the visible bindings only can tell. `Carries now x y` says that whatever
   `x` shows at `now` is bound alike in `y`. It is kept by doing the same thing to both
   maps and by purging either of them. The one operation to watch is `touch`, which
   looks at its binding before it changes it: it may do so at an earlier time on one
   side than on the other, and give a binding a longer life than it had. -/
namespace Expiring

variable {K β T : Type} [Preorder T] [DecidableLT T] (deadline : β → Option T)

/-- Not expired at `now`. -/
def Live (now : T) (b : β) : Prop := ∀ d ∈ deadline b, now < d

instance (now : T) (b : β) : Decidable (Live deadline now b) :=
  inferInstanceAs (Decidable (∀ d ∈ deadline b, now < d))

/-- The bindings that have not expired at `now`. -/
def visible (now : T) (m : K → Option β) : K → Option β :=
  fun k => (m k).filter (fun b => Live deadline now b)

/-- What `x` shows at `now`, `y` binds alike. -/
def Carries (now : T) (x y : K → Option β) : Prop :=
  ∀ k b, visible deadline now x k = some b → y k = some b

/-- `x` and `y` show the same at `now`. -/
def Agree (now : T) (x y : K → Option β) : Prop := visible deadline now x = visible deadline now y

section Visible
variable {deadline} {now later : T} {m : K → Option β} {k : K} {b : β}

omit [DecidableLT T] in
theorem Live.of_le (hle : now ≤ later) (h : Live deadline later b) : Live deadline now b :=
  fun d hd => lt_of_le_of_lt hle (h d hd)

theorem visible_eq_some :
    visible deadline now m k = some b ↔ m k = some b ∧ Live deadline now b := by
  unfold visible
  rw [Option.filter_eq_some_iff, decide_eq_true_iff]

theorem visible_eq_none :
    visible deadline now m k = none ↔ ∀ b, m k = some b → ¬Live deadline now b := by
  rw [Option.eq_none_iff_forall_ne_some]
  exact forall_congr' (fun b => by rw [ne_eq, visible_eq_some, not_and])

theorem visible_of_none (h : m k = none) : visible deadline now m k = none := by
  unfold visible; rw [h]; rfl

/-- What is visible later was visible before. -/
theorem visible_visible (hle : now ≤ later) :
    visible deadline later (visible deadline now m) = visible deadline later m := by
  funext k
  refine Option.ext (fun b => ?_)
  rw [visible_eq_some, visible_eq_some, visible_eq_some]
  exact ⟨fun h => ⟨h.1.1, h.2⟩, fun h => ⟨⟨h.1, h.2.of_le hle⟩, h.2⟩⟩

theorem visible_congr {m' : K → Option β} (h : m k = m' k) :
    visible deadline now m k = visible deadline now m' k := by
  unfold visible; rw [h]

end Visible

section Operations
variable [DecidableEq K]

/-- Change the binding of `k` if it is visible at `now`; drop it otherwise. -/
def touch (now : T) (k : K) (f : β → β) (m : K → Option β) : K → Option β :=
  Function.update m k ((visible deadline now m k).map f)

/-- Drop the bindings of `ks`. -/
def drop (ks : List K) (m : K → Option β) : K → Option β :=
  fun k => if k ∈ ks then none else m k

variable {deadline} {now : T} {x y : K → Option β}

theorem visible_update_self (k : K) (b : Option β) (now : T) (x : K → Option β) :
    visible deadline now (Function.update x k b) k = b.filter (fun b => Live deadline now b) := by
  unfold visible; rw [Function.update_self]

theorem visible_update_of_ne {k k' : K} (h : k' ≠ k) (b : Option β) (now : T) (x : K → Option β) :
    visible deadline now (Function.update x k b) k' = visible deadline now x k' :=
  visible_congr (Function.update_of_ne h _ _)

theorem drop_append (ks ks' : List K) (m : K → Option β) : drop (ks ++ ks') m = drop ks' (drop ks m) := by
  funext k
  unfold drop
  by_cases h : k ∈ ks <;> by_cases h' : k ∈ ks' <;> simp [h, h']

theorem drop_singleton (k : K) (m : K → Option β) : drop [k] m = Function.update m k none := by
  funext k'
  unfold drop
  by_cases h : k' = k
  · rw [h, Function.update_self, if_pos List.mem_cons_self]
  · rw [Function.update_of_ne h, if_neg (by simp [h])]

namespace Carries

omit [DecidableEq K] in
theorem refl (now : T) (x : K → Option β) : Carries deadline now x x :=
  fun _ _ h => (visible_eq_some.mp h).1

omit [DecidableEq K] in
theorem later {later : T} (hle : now ≤ later) (h : Carries deadline now x y) :
    Carries deadline later x y := by
  intro k b hb
  obtain ⟨hx, hl⟩ := visible_eq_some.mp hb
  exact h k b (visible_eq_some.mpr ⟨hx, hl.of_le hle⟩)

theorem update (h : Carries deadline now x y) (k : K) (b : Option β) :
    Carries deadline now (Function.update x k b) (Function.update y k b) := by
  intro k' b' hb
  by_cases hk : k' = k
  · rw [hk, Function.update_self]
    rw [hk, visible_update_self] at hb
    exact (Option.filter_eq_some_iff.mp hb).1
  · rw [Function.update_of_ne hk]
    rw [visible_update_of_ne hk] at hb
    exact h k' b' hb

theorem drop (h : Carries deadline now x y) (ks : List K) :
    Carries deadline now (Expiring.drop ks x) (Expiring.drop ks y) := by
  intro k b hb
  obtain ⟨hx, hl⟩ := visible_eq_some.mp hb
  unfold Expiring.drop at hx ⊢
  split at hx
  · cases hx
  · next hk =>
    rw [if_neg hk]
    exact h k b (visible_eq_some.mpr ⟨hx, hl⟩)

omit [DecidableEq K] in
/-- Purging the map looked at shows nothing more. -/
theorem purge_left (h : Carries deadline now x y) (t : T) :
    Carries deadline now (visible deadline t x) y := by
  intro k b hb
  obtain ⟨hx, hl⟩ := visible_eq_some.mp hb
  exact h k b (visible_eq_some.mpr ⟨(visible_eq_some.mp hx).1, hl⟩)

omit [DecidableEq K] in
/-- Purging the other map takes nothing that is still shown. -/
theorem purge_right {t : T} (ht : t ≤ now) (h : Carries deadline now x y) :
    Carries deadline now x (visible deadline t y) := by
  intro k b hb
  exact visible_eq_some.mpr ⟨h k b hb, (visible_eq_some.mp hb).2.of_le ht⟩

/-- Touching both, `y` no later than `now`. A binding that is visible to the touch
    of `x` has to have life left up to `now` if the touch makes it live then. -/
theorem touch {tx ty : T} {k : K} {f : β → β} (h : Carries deadline now x y) (hty : ty ≤ now)
    (hlife : ∀ b, visible deadline tx x k = some b → Live deadline now (f b) →
      Live deadline now b) :
    Carries deadline now (touch deadline tx k f x) (touch deadline ty k f y) := by
  intro k' b' hb
  unfold Expiring.touch at hb ⊢
  by_cases hk : k' = k
  · rw [hk, visible_update_self, Option.filter_eq_some_iff, Option.map_eq_some_iff] at hb
    obtain ⟨⟨b, hxb, rfl⟩, hlive⟩ := hb
    have hnow := hlife b hxb (decide_eq_true_iff.mp hlive)
    have hyb := h k b (visible_eq_some.mpr ⟨(visible_eq_some.mp hxb).1, hnow⟩)
    have hvy := visible_eq_some.mpr ⟨hyb, hnow.of_le hty⟩
    rw [hk, Function.update_self, hvy]
    rfl
  · rw [Function.update_of_ne hk]
    rw [visible_update_of_ne hk] at hb
    exact h k' b' hb

end Carries

namespace Agree

omit [DecidableEq K] in
theorem iff_carries :
    Agree deadline now x y ↔ Carries deadline now x y ∧ Carries deadline now y x := by
  constructor
  · intro h
    refine ⟨fun k b hb => ?_, fun k b hb => ?_⟩
    · exact (visible_eq_some.mp ((congrFun h k).symm.trans hb)).1
    · exact (visible_eq_some.mp ((congrFun h k).trans hb)).1
  · intro hpost
    obtain ⟨hxy, hyx⟩ := hpost
    funext k
    refine Option.ext (fun b => ⟨fun hb => ?_, fun hb => ?_⟩)
    · exact visible_eq_some.mpr ⟨hxy k b hb, (visible_eq_some.mp hb).2⟩
    · exact visible_eq_some.mpr ⟨hyx k b hb, (visible_eq_some.mp hb).2⟩

omit [DecidableEq K] in
theorem later {later : T} (hle : now ≤ later) (h : Agree deadline now x y) :
    Agree deadline later x y := by
  unfold Agree at h ⊢
  rw [← visible_visible hle, h, visible_visible hle]

theorem update (h : Agree deadline now x y) (k : K) (b : Option β) :
    Agree deadline now (Function.update x k b) (Function.update y k b) := by
  obtain ⟨hxy, hyx⟩ := iff_carries.mp h
  exact iff_carries.mpr ⟨hxy.update k b, hyx.update k b⟩

theorem drop (h : Agree deadline now x y) (ks : List K) :
    Agree deadline now (Expiring.drop ks x) (Expiring.drop ks y) := by
  obtain ⟨hxy, hyx⟩ := iff_carries.mp h
  exact iff_carries.mpr ⟨hxy.drop ks, hyx.drop ks⟩

omit [DecidableEq K] in
theorem purge_left (h : Agree deadline now x y) : Agree deadline now (visible deadline now x) y :=
  (visible_visible (le_refl now)).trans h

theorem touch_some (h : Agree deadline now x y) {k : K} {b : β}
    (hv : visible deadline now y k = some b) (f : β → β) :
    Agree deadline now (touch deadline now k f x) (Function.update y k (some (f b))) := by
  unfold Expiring.touch
  rw [show visible deadline now x k = some b from (congrFun h k).trans hv]
  exact h.update k _

/-- A touch that finds nothing visible shows the same as none at all. -/
theorem touch_none (h : Agree deadline now x y) {k : K} (hv : visible deadline now y k = none)
    (f : β → β) : Agree deadline now (touch deadline now k f x) y := by
  unfold Expiring.touch
  rw [show visible deadline now x k = none from (congrFun h k).trans hv]
  funext k'
  by_cases hk' : k' = k
  · rw [hk', hv, visible_update_self]
    rfl
  · rw [visible_update_of_ne hk']
    exact congrFun h k'

end Agree
end Operations

end Expiring
