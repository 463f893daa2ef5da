import SimpleKv.CommandMap
import SimpleKv.Server

/- The operations of the server state on partial maps. The clean-up task leaves
   exactly the visible bindings; a write whose append succeeds does to the bindings
   what its command does. -/
namespace SimpleKv
open Outcome PartialMap Expiring Command

namespace ServerState

/-- The keys the clean-up collects at `now`. -/
def expiredKeys (now : UInt64) (keyStore : Store) : List Bytes :=
  (keyStore.iter.filter (fun (_, value) => ¬value.LiveAt now)).map Prod.fst

theorem mem_expiredKeys {keyStore : Store} {m : Bindings} (h : keyStore.Holds m) {now : UInt64}
    {key : Bytes} : key ∈ expiredKeys now keyStore ↔ ∃ value, m key = some value ∧ ¬value.LiveAt now := by
  unfold expiredKeys
  simp only [List.mem_map, List.mem_filter, decide_eq_true_eq]
  refine ⟨fun hkey => ?_, fun hkey => ?_⟩
  · obtain ⟨⟨_, value⟩, ⟨hp, hl⟩, rfl⟩ := hkey
    exact ⟨value, h.lists.mem_iff.mp hp, hl⟩
  · obtain ⟨value, hm, hl⟩ := hkey
    exact ⟨(key, value), ⟨h.lists.mem_iff.mpr hm, hl⟩, rfl⟩

/-- Without the collected keys, what is left is what is visible. -/
theorem drop_expiredKeys {keyStore : Store} {m : Bindings} (h : keyStore.Holds m) (now : UInt64) :
    drop (expiredKeys now keyStore) m = visibleAt now m := by
  funext key
  unfold drop
  split
  · next hk =>
    obtain ⟨value, hm, hl⟩ := (mem_expiredKeys h).mp hk
    exact (visibleAt_expired hm hl).symm
  · next hk =>
    cases hm : m key with
    | none => exact (visibleAt_absent hm).symm
    | some value =>
      refine (visibleAt_live hm ?_).symm
      by_contra hl
      exact hk ((mem_expiredKeys h).mpr ⟨value, hm, hl⟩)

/-- The clean-up leaves the visible bindings, and counts the keys it collected; where it
    collected none it leaves the table itself as it was. -/
theorem removeExpired_spec {stop : Fault → Prop} {self : ServerState} {m : Bindings}
    (h : self.keyStore.Holds m) (now : UInt64) :
    YieldsAt stop (Stream'.const now) self.removeExpired (fun (count, self') =>
      self'.wal = self.wal ∧ self'.keyStore.Holds (visibleAt now m) ∧
      count = (expiredKeys now self.keyStore).length ∧
      (expiredKeys now self.keyStore = [] → self' = self)) := by
  unfold removeExpired
  refine YieldsAt.bind (YieldsAt.mapM (fun pair : Bytes × StoredValue =>
    if ¬pair.2.LiveAt now then some pair.1 else none) _ ?_) ?_
  · intro (key, value) _
    apply YieldsAt.bind_eq (value.isExpired_spec now)
    apply YieldsAt.pure
    by_cases hl : value.LiveAt now <;> simp [hl]
  intro _ heq
  subst heq
  rw [reduceOption_map_ite (fun pair : Bytes × StoredValue => pair.1)
    (fun pair => ¬pair.2.LiveAt now)]
  -- what is left after the keys in `rest` are deleted too is what is visible
  refine YieldsAt.bind (YieldsAt.foldlM (fun rest (keyStore : Store) =>
    rest <:+ expiredKeys now self.keyStore ∧
    (∃ m' : Bindings, keyStore.Holds m' ∧ drop rest m' = visibleAt now m) ∧
    (expiredKeys now self.keyStore = [] → keyStore = self.keyStore)) ?_ _ _
    ⟨List.suffix_rfl, ⟨m, h, drop_expiredKeys h now⟩, fun _ => rfl⟩) ?_
  · intro key rest keyStore hpost
    obtain ⟨hsuffix, ⟨m', h', hm⟩, _⟩ := hpost
    refine YieldsAt.bind (del_lift h' key) (fun r hr => YieldsAt.pure ⟨?_, ⟨_, hr.2, ?_⟩, ?_⟩)
    · exact (List.suffix_cons key rest).trans hsuffix
    · rw [← drop_singleton, ← drop_append]
      exact hm
    · intro hnil
      rw [hnil, List.suffix_nil] at hsuffix
      cases hsuffix
  · intro keyStore hpost
    obtain ⟨_, ⟨m', h', hm⟩, hsame⟩ := hpost
    refine YieldsAt.pure ⟨rfl, ?_, rfl, fun hnil => ?_⟩
    · have hnil : drop [] m' = m' := funext (fun key => if_neg List.not_mem_nil)
      rw [← hm, hnil]
      exact h'
    · rw [hsame hnil]

/-- A write that is logged. -/
theorem write_ok_spec {self : ServerState} {m : Bindings} (h : self.keyStore.Holds m)
    (now : UInt64) {command : Command} (hwrite : command.isWriteOp = true) :
    CompletesAt now (self.write command none) (fun (response, self') =>
      Answers now m command response ∧
      self'.wal.contents = self.wal.contents ++ command.toBytes ∧
      self'.keyStore.Holds (command.onMap now m)) := by
  unfold write
  exact YieldsAt.bind (applyWrite_spec h hwrite) (fun r hr => YieldsAt.pure ⟨hr.1, rfl, hr.2⟩)

end ServerState
end SimpleKv
