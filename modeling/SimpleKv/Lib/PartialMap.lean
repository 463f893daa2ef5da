import Mathlib.Data.Set.Card
import Mathlib.Data.Finset.Card

/- Partial maps as functions to `Option`, and the lists that enumerate them.
   `Lists l m`: the pairs of `l` are the bindings of `m`, each key once. What a
   table does to its list of pairs, up to order, is then read off as what happens to
   the map (`cons_iff`, `put_iff`). -/
namespace PartialMap

variable {K V : Type}

structure Lists (l : List (K × V)) (m : K → Option V) : Prop where
  distinct : (l.map Prod.fst).Nodup
  mem_iff : ∀ {k v}, (k, v) ∈ l ↔ m k = some v

namespace Lists
variable {l l' : List (K × V)} {m : K → Option V}

theorem nil : Lists [] (fun _ : K => (none : Option V)) := ⟨List.nodup_nil, by simp⟩

theorem perm (h : Lists l m) (hp : l'.Perm l) : Lists l' m where
  distinct := (hp.map Prod.fst).nodup_iff.mpr h.distinct
  mem_iff := hp.mem_iff.trans h.mem_iff

theorem nodup (h : Lists l m) : l.Nodup := List.Nodup.of_map _ h.distinct

theorem mem_keys (h : Lists l m) {k : K} : k ∈ l.map Prod.fst ↔ m k ≠ none := by
  rw [Option.ne_none_iff_exists']
  constructor
  · intro hk
    obtain ⟨⟨_, v⟩, hm, rfl⟩ := List.mem_map.mp hk
    exact ⟨v, h.mem_iff.mp hm⟩
  · intro hpost
    obtain ⟨v, hv⟩ := hpost
    exact List.mem_map.mpr ⟨(k, v), h.mem_iff.mpr hv, rfl⟩

/-- The list has as many pairs as the map has keys. -/
theorem ncard (h : Lists l m) : {k | m k ≠ none}.ncard = l.length := by
  classical
  have hset : {k | m k ≠ none} = ((l.map Prod.fst).toFinset : Set K) := by
    ext k
    change m k ≠ none ↔ _
    rw [Finset.mem_coe, List.mem_toFinset]
    exact h.mem_keys.symm
  rw [hset, Set.ncard_coe_finset, List.toFinset_card_of_nodup h.distinct, List.length_map]

variable [DecidableEq K]

theorem cons_iff {k : K} {v : V} :
    Lists ((k, v) :: l) m ↔ m k = some v ∧ Lists l (Function.update m k none) := by
  constructor
  · intro h
    have hk := List.nodup_cons.mp h.distinct
    refine ⟨h.mem_iff.mp (by simp), hk.2, ?_⟩
    intro k' v'
    -- the key of the first pair is in no other
    by_cases he : k' = k
    · subst he
      rw [Function.update_self]
      exact iff_of_false (fun hm => hk.1 (List.mem_map.mpr ⟨_, hm, rfl⟩)) (by simp)
    · rw [Function.update_of_ne he, ← h.mem_iff]
      simp [he]
  · intro hpost
    obtain ⟨hv, h⟩ := hpost
    constructor
    · refine List.nodup_cons.mpr ⟨fun hk => ?_, h.distinct⟩
      exact h.mem_keys.mp hk (Function.update_self _ _ _)
    · intro k' v'
      by_cases he : k' = k
      · subst he
        rw [hv, List.mem_cons, h.mem_iff, Function.update_self]
        simp [eq_comm]
      · rw [List.mem_cons, h.mem_iff, Function.update_of_ne he]
        simp [he]

theorem put_iff {k : K} {v : V} :
    Lists ((k, v) :: l) (Function.update m k (some v)) ↔ Lists l (Function.update m k none) := by
  rw [cons_iff, Function.update_self, Function.update_idem]
  exact and_iff_right rfl

/-- A new binding. -/
theorem add (h : Lists l m) {k : K} (hk : m k = none) (v : V) :
    Lists ((k, v) :: l) (Function.update m k (some v)) := by
  rw [put_iff, ← hk, Function.update_eq_self]
  exact h

/-- A binding replaced, the others being `rest`. -/
theorem exchange {rest : List (K × V)} {k : K} {v w : V} (h : Lists l m)
    (hl : l.Perm ((k, v) :: rest)) (hl' : l'.Perm ((k, w) :: rest)) :
    m k = some v ∧ Lists l' (Function.update m k (some w)) := by
  obtain ⟨hv, hrest⟩ := cons_iff.mp (h.perm hl.symm)
  exact ⟨hv, (put_iff.mpr hrest).perm hl'⟩

end Lists

/-- What holds of all bindings holds after an update with a value of which it holds. -/
theorem forall_update [DecidableEq K] {P : K → V → Prop} {m : K → Option V} {k : K} {v : Option V}
    (h : ∀ k' v', m k' = some v' → P k' v') (hv : ∀ v', v = some v' → P k v') :
    ∀ k' v', Function.update m k v k' = some v' → P k' v' := by
  intro k' v' heq
  by_cases hk : k' = k
  · subst hk
    rw [Function.update_self] at heq
    exact hv v' heq
  · rw [Function.update_of_ne hk] at heq
    exact h k' v' heq

end PartialMap
