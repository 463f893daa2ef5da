import SimpleKv.Command
import SimpleKv.KeyStoreMap
import SimpleKv.Lib.Expiring

/- Commands on partial maps. While the clock shows `now`, a command run on a key store
   that holds `m` leaves one that holds `onMap now command m`, and its response is
   the one `Answers now m command` describes in terms of the bindings visible at
   `now`. Neither mentions the table: buckets, hashes and growth end here. -/
namespace SimpleKv
open Outcome PartialMap Expiring

instance preorderUInt64 : Preorder UInt64 where
  le_refl := UInt64.le_refl
  le_trans _ _ _ := UInt64.le_trans
  lt_iff_le_not_ge _ _ := by
    rw [UInt64.lt_iff_toNat_lt, UInt64.le_iff_toNat_le, UInt64.le_iff_toNat_le]
    omega

/-- The bindings of a key store. -/
abbrev Bindings := Bytes → Option StoredValue

/-- The bindings a client sees at `now`. -/
abbrev visibleAt (now : UInt64) (m : Bindings) : Bindings := visible StoredValue.expiresAt now m

abbrev StoredValue.LiveAt (now : UInt64) (value : StoredValue) : Prop :=
  Live StoredValue.expiresAt now value

theorem StoredValue.isExpired_spec {stop : Fault → Prop} (now : UInt64) (value : StoredValue) :
    YieldsAt stop (Stream'.const now) value.isExpired (· = decide ¬value.LiveAt now) := by
  unfold isExpired
  cases h : value.expiresAt with
  | none =>
    apply YieldsAt.pure
    simp [Live, h]
  | some d =>
    apply YieldsAt.bind_eq (readClock_const now)
    apply YieldsAt.pure
    simp [Live, h]

theorem visibleAt_live {now : UInt64} {m : Bindings} {key : Bytes} {value : StoredValue}
    (hm : m key = some value) (h : value.LiveAt now) : visibleAt now m key = some value :=
  visible_eq_some.mpr ⟨hm, h⟩

theorem visibleAt_expired {now : UInt64} {m : Bindings} {key : Bytes} {value : StoredValue}
    (hm : m key = some value) (h : ¬value.LiveAt now) : visibleAt now m key = none := by
  refine visible_eq_none.mpr (fun b hb => ?_)
  rw [hm] at hb
  cases hb
  exact h

theorem visibleAt_absent {now : UInt64} {m : Bindings} {key : Bytes} (hm : m key = none) :
    visibleAt now m key = none := visible_of_none hm

namespace Command

/-- What a command does to the bindings at `now`. -/
def onMap (now : UInt64) : Command → Bindings → Bindings
  | .set key value, m => Function.update m key (some (.new value))
  | .mset entries, m =>
    entries.foldl (fun m (key, value) => Function.update m key (some (.new value))) m
  | .del keys, m => drop keys m
  | .expireAt key timestamp, m =>
    touch StoredValue.expiresAt now key (fun value => { value with expiresAt := some timestamp }) m
  | .get _, m | .mget _, m | .getAll, m | .ttl _, m => m

/-- The response to `GET`. -/
def shown (now : UInt64) (m : Bindings) (key : Bytes) : Response :=
  match visibleAt now m key with
  | none => .null
  | some value => .cstr value.bytes

/-- How many different keys of `keys` are visible. -/
def visibleCount (now : UInt64) (m : Bindings) (keys : List Bytes) : Nat :=
  (keys.toFinset.filter (fun key => (visibleAt now m key).isSome)).card

/-- The number `TTL` answers: the deadline as it is up to `i64::MAX`, and from there
    on negative. -/
def remaining (now : UInt64) (m : Bindings) (key : Bytes) : Int :=
  match visibleAt now m key with
  | none => -2
  | some ⟨_, none⟩ => -1
  | some ⟨_, some deadline⟩ =>
    if deadline.toNat < 2^63 then deadline.toNat else deadline.toNat - 2^64

/-- The response to a command in terms of the visible bindings; `GETALL` may list
    them in any order. -/
def Answers (now : UInt64) (m : Bindings) : Command → Response → Prop
  | .get key, response => response = shown now m key
  | .mget keys, response => response = .array (keys.map (shown now m))
  | .getAll, response => ∃ pairs, Lists pairs (visibleAt now m) ∧
      response = .array (pairs.map (fun (key, value) => .array [.cstr key, .cstr value.bytes]))
  | .ttl key, response => ∃ n : Int64, response = .integer n ∧ n.toInt = remaining now m key
  | .set _ _, response => response = .ok
  | .mset _, response => response = .ok
  | .del keys, response => response = .integer (Int64.ofNat (visibleCount now m keys))
  | .expireAt key _, response => response = .integer (if (visibleAt now m key).isSome then 1 else 0)

/-! Reads. -/

section Reads
variable {now : UInt64} {keyStore : Store} {m : Bindings}

theorem get_lift {stop : Fault → Prop} (h : keyStore.Holds m) (key : Bytes) :
    YieldsAt stop (Stream'.const now) (liftM (keyStore.get key)) (· = m key) :=
  YieldsAt.lift (by rw [KeyStore.get_spec h key]; rfl)

theorem applyGet_spec (h : keyStore.Holds m) (key : Bytes) :
    CompletesAt now (applyGet key keyStore) (· = shown now m key) := by
  unfold applyGet shown
  apply YieldsAt.bind_eq (get_lift h key)
  cases hm : m key with
  | none =>
    rw [visibleAt_absent hm]
    exact YieldsAt.pure rfl
  | some value =>
    apply YieldsAt.bind_eq (value.isExpired_spec now)
    apply YieldsAt.pure
    by_cases hl : value.LiveAt now
    · rw [visibleAt_live hm hl]
      simp [hl]
    · rw [visibleAt_expired hm hl]
      simp [hl]

theorem applyMget_spec (h : keyStore.Holds m) (keys : List Bytes) :
    CompletesAt now (applyMget keys keyStore) (· = .array (keys.map (shown now m))) := by
  unfold applyMget
  apply YieldsAt.bind_eq (YieldsAt.mapM (shown now m) keys (fun key _ => applyGet_spec h key))
  exact YieldsAt.pure rfl

/-- The pairs of a key store that are visible list what the map shows. -/
theorem lists_filter {l : List (Bytes × StoredValue)} (h : Lists l m) :
    Lists (l.filter (fun (_, value) => value.LiveAt now)) (visibleAt now m) where
  distinct := h.distinct.sublist (List.filter_sublist.map _)
  mem_iff {k v} := by
    rw [visible_eq_some, List.mem_filter, h.mem_iff, decide_eq_true_iff]

theorem reduceOption_map_ite {α β : Type} (f : α → β) (p : α → Prop) [DecidablePred p] :
    ∀ l : List α, (l.map (fun a => if p a then some (f a) else none)).reduceOption =
      (l.filter (fun a => p a)).map f := by
  intro l
  induction l with
  | nil => rfl
  | cons a l ih =>
    by_cases h : p a
    · simp [h, ih]
    · simp [h, ih]

theorem applyGetall_spec (h : keyStore.Holds m) :
    CompletesAt now (applyGetall keyStore) (Answers now m .getAll) := by
  unfold applyGetall
  refine YieldsAt.bind (YieldsAt.mapM (fun pair : Bytes × StoredValue =>
    if pair.2.LiveAt now then some (Response.array [.cstr pair.1, .cstr pair.2.bytes]) else none)
    _ ?_) ?_
  · intro (key, value) _
    apply YieldsAt.bind_eq (value.isExpired_spec now)
    apply YieldsAt.pure
    by_cases hl : value.LiveAt now <;> simp [hl]
  · intro _ heq
    subst heq
    refine YieldsAt.pure ⟨_, lists_filter h.lists, ?_⟩
    rw [reduceOption_map_ite]

theorem toInt_toInt64 (d : UInt64) :
    d.toInt64.toInt = if d.toNat < 2^63 then (d.toNat : Int) else d.toNat - 2^64 := by
  show d.toBitVec.toInt = _
  rw [BitVec.toInt_eq_toNat_cond]
  show (if 2 * d.toNat < 2^64 then (d.toNat : Int) else d.toNat - (2^64 : ℕ)) = _
  split <;> split <;> omega

theorem applyTtl_spec {stop : Fault → Prop} (h : keyStore.Holds m) (key : Bytes) :
    YieldsAt stop (Stream'.const now) (applyTtl key keyStore) (Answers now m (.ttl key)) := by
  have key_absent : remaining now m key = -2 → Answers now m (.ttl key) (.integer (-2)) :=
    fun hr => ⟨-2, rfl, hr.symm⟩
  unfold applyTtl
  apply YieldsAt.bind_eq (get_lift h key)
  cases hm : m key with
  | none =>
    refine YieldsAt.pure (key_absent ?_)
    unfold remaining
    rw [visibleAt_absent hm]
  | some value =>
    apply YieldsAt.bind_eq (value.isExpired_spec now)
    by_cases hl : value.LiveAt now
    · rw [if_neg (by simp [hl])]
      have hv := visibleAt_live hm hl
      -- a deadline is answered as it is stored, cast to `i64`
      obtain ⟨bytes, expiresAt⟩ := value
      cases expiresAt with
      | none =>
        refine YieldsAt.pure ⟨-1, rfl, ?_⟩
        unfold remaining
        rw [hv]
        rfl
      | some d =>
        refine YieldsAt.pure ⟨_, rfl, ?_⟩
        unfold remaining
        rw [hv]
        exact toInt_toInt64 d
    · rw [if_pos (by simp [hl])]
      refine YieldsAt.pure (key_absent ?_)
      unfold remaining
      rw [visibleAt_expired hm hl]

theorem applyRead_spec (h : keyStore.Holds m) {command : Command}
    (hread : command.isWriteOp = false) :
    CompletesAt now (command.applyRead keyStore) (Answers now m command) := by
  cases command with
  | get key => exact applyGet_spec h key
  | mget keys => exact applyMget_spec h keys
  | getAll => exact applyGetall_spec h
  | ttl key => exact applyTtl_spec h key
  | set | mset | del | expireAt => cases hread

end Reads

/-! Writes. -/

section Writes
variable {now : UInt64} {keyStore : Store} {m : Bindings}

theorem insert_lift (h : keyStore.Holds m) (key : Bytes) (value : StoredValue) :
    CompletesAt now (liftM (keyStore.insert key value)) (fun (_, keyStore) =>
      keyStore.Holds (Function.update m key (some value))) :=
  YieldsAt.lift (Yields.mono (KeyStore.insert_spec h key value) (fun _ hr => hr.2))

theorem del_lift {stop : Fault → Prop} (h : keyStore.Holds m) (key : Bytes) :
    YieldsAt stop (Stream'.const now) (liftM (keyStore.del key)) (fun (removed, keyStore) =>
      removed = m key ∧ keyStore.Holds (Function.update m key none)) := by
  obtain ⟨keyStore', hrun, h', _⟩ := KeyStore.del_spec h key
  apply YieldsAt.lift
  rw [hrun]
  exact ⟨rfl, h'⟩

/-- Ejection leaves the key bound if it is visible, and free otherwise. -/
theorem ejectIfExpired_spec {stop : Fault → Prop} (h : keyStore.Holds m) (key : Bytes) :
    YieldsAt stop (Stream'.const now) (ejectIfExpired keyStore key) (fun keyStore =>
      keyStore.Holds (Function.update m key (visibleAt now m key))) := by
  unfold ejectIfExpired
  apply YieldsAt.bind_eq (get_lift h key)
  cases hm : m key with
  | none =>
    apply YieldsAt.pure
    rw [visibleAt_absent hm, ← hm, Function.update_eq_self]
    exact h
  | some value =>
    apply YieldsAt.bind_eq (value.isExpired_spec now)
    -- a visible value stays, and one that is past its deadline goes
    by_cases hl : value.LiveAt now
    · rw [if_neg (by simp [hl])]
      apply YieldsAt.pure
      rw [visibleAt_live hm hl, ← hm, Function.update_eq_self]
      exact h
    · rw [if_pos (by simp [hl]), visibleAt_expired hm hl]
      exact YieldsAt.bind (del_lift h key) (fun r hr => YieldsAt.pure hr.2)

theorem applySet_spec (h : keyStore.Holds m) (key value : Bytes) :
    CompletesAt now (applySet key value keyStore) (fun (response, keyStore) =>
      response = .ok ∧ keyStore.Holds (onMap now (.set key value) m)) :=
  YieldsAt.bind (insert_lift h key _) (fun _ hr => YieldsAt.pure ⟨rfl, hr⟩)

theorem applyMset_spec (h : keyStore.Holds m) (entries : List (Bytes × Bytes)) :
    CompletesAt now (applyMset entries keyStore) (fun (response, keyStore) =>
      response = .ok ∧ keyStore.Holds (onMap now (.mset entries) m)) := by
  unfold applyMset
  -- what the entries to come make of the store is what all make of the first one
  refine YieldsAt.bind (YieldsAt.foldlM (fun rest (keyStore : Store) => ∃ m' : Bindings,
    keyStore.Holds m' ∧ onMap now (.mset rest) m' = onMap now (.mset entries) m) ?_ _ _
    ⟨m, h, rfl⟩) ?_
  · intro (key, value) rest keyStore hpost
    obtain ⟨m', h', hm⟩ := hpost
    refine YieldsAt.bind (insert_lift h' key _) (fun r hr => YieldsAt.pure ?_)
    exact ⟨_, hr, hm⟩
  · intro keyStore' hpost
    obtain ⟨m', h', hm⟩ := hpost
    refine YieldsAt.pure ⟨rfl, ?_⟩
    rw [← hm]
    exact h'

/-- Deleting one key more: it counts if it is visible and was not deleted before. -/
theorem visibleCount_append (keys : List Bytes) (key : Bytes) :
    visibleCount now m (keys ++ [key]) =
      if (visibleAt now (drop keys m) key).isSome then visibleCount now m keys + 1
      else visibleCount now m keys := by
  have hdrop : visibleAt now (drop keys m) key = if key ∈ keys then none else visibleAt now m key := by
    by_cases hk : key ∈ keys
    · rw [if_pos hk]
      exact visibleAt_absent (if_pos hk)
    · rw [if_neg hk]
      exact visible_congr (if_neg hk)
  unfold visibleCount
  rw [List.toFinset_append, List.toFinset_cons, List.toFinset_nil, insert_empty_eq,
    Finset.union_singleton, Finset.filter_insert, hdrop]
  by_cases hv : (visibleAt now m key).isSome
  · rw [if_pos hv]
    by_cases hk : key ∈ keys
    · rw [Finset.insert_eq_of_mem (Finset.mem_filter.mpr ⟨List.mem_toFinset.mpr hk, hv⟩)]
      simp [hk]
    · rw [Finset.card_insert_of_notMem (by simp [hk])]
      simp [hk, hv]
  · rw [if_neg hv]
    simp [Option.not_isSome_iff_eq_none.mp hv]

theorem applyDel_spec (h : keyStore.Holds m) (keys : List Bytes) :
    CompletesAt now (applyDel keys keyStore) (fun (response, keyStore) =>
      Answers now m (.del keys) response ∧ keyStore.Holds (onMap now (.del keys) m)) := by
  unfold applyDel
  -- `done` are the keys deleted so far, and the count is of the visible ones among them
  refine YieldsAt.bind (YieldsAt.foldlM (fun rest (r : ℕ × Store) => ∃ done,
    done ++ rest = keys ∧ r.1 = visibleCount now m done ∧ r.2.Holds (drop done m)) ?_ _ _ ?_) ?_
  · intro key rest (count, keyStore) hpost
    obtain ⟨done, hkeys, rfl, h'⟩ := hpost
    refine YieldsAt.bind (ejectIfExpired_spec h' key) (fun ejected he => ?_)
    apply YieldsAt.bind (del_lift he key)
    intro (removed, deleted) hpost
    obtain ⟨rfl, hd⟩ := hpost
    refine YieldsAt.pure ⟨done ++ [key], by rw [← hkeys, List.append_assoc]; rfl, ?_, ?_⟩
    · rw [visibleCount_append, Function.update_self]
    · rw [drop_append, drop_singleton]
      rwa [Function.update_idem] at hd
  · refine ⟨[], rfl, rfl, ?_⟩
    have hnil : drop [] m = m := funext (fun key => if_neg (List.not_mem_nil))
    rw [hnil]
    exact h
  · intro (count, keyStore') hpost
    obtain ⟨done, hkeys, rfl, h'⟩ := hpost
    rw [List.append_nil] at hkeys
    subst hkeys
    exact YieldsAt.pure ⟨rfl, h'⟩

/-- Setting a deadline asks for no memory. -/
theorem applyExpireAt_spec {stop : Fault → Prop} (h : keyStore.Holds m) (key : Bytes)
    (timestamp : UInt64) :
    YieldsAt stop (Stream'.const now) (applyExpireAt key timestamp keyStore) (fun (response, keyStore) =>
      Answers now m (.expireAt key timestamp) response ∧
        keyStore.Holds (onMap now (.expireAt key timestamp) m)) := by
  unfold applyExpireAt
  refine YieldsAt.bind (ejectIfExpired_spec h key) (fun ejected he => ?_)
  obtain ⟨keyStore', hrun, h', _⟩ := KeyStore.getMut_spec he key
    (fun value => { value with expiresAt := some timestamp })
  rw [Function.update_self] at hrun h'
  rw [Function.update_idem] at h'
  refine YieldsAt.bind_eq (YieldsAt.lift (P := (· = (visibleAt now m key, keyStore')))
    (by rw [hrun]; rfl)) ?_
  cases hv : visibleAt now m key with
  | none =>
    refine YieldsAt.pure ⟨?_, h'⟩
    simp [Answers, hv]
  | some value =>
    refine YieldsAt.pure ⟨?_, h'⟩
    simp [Answers, hv]

theorem applyWrite_spec (h : keyStore.Holds m) {command : Command}
    (hwrite : command.isWriteOp = true) :
    CompletesAt now (command.applyWrite keyStore) (fun (response, keyStore) =>
      Answers now m command response ∧ keyStore.Holds (command.onMap now m)) := by
  cases command with
  | set key value => exact applySet_spec h key value
  | mset entries => exact applyMset_spec h entries
  | del keys => exact applyDel_spec h keys
  | expireAt key timestamp => exact applyExpireAt_spec h key timestamp
  | get | mget | getAll | ttl => cases hwrite

end Writes
end Command
end SimpleKv
