import SimpleKv.CommandCodec
import SimpleKv.CommandMemory
import SimpleKv.ServerMap
import SimpleKv.ResponseGrammar

/- Commands under any clock. Whatever the readings are, commands within the limits of
   the protocol keep the keys and the values of the store within them, and so every
   response to a command can be read back from its bytes. -/
namespace SimpleKv
open Outcome PartialMap

/-- The store is a sound table whose keys and values are within the limits. -/
def Sized (keyStore : Store) : Prop := ∃ m : Bindings, keyStore.Holds m ∧
  ∀ key value, m key = some value →
    key.length ≤ maxComplexStringLength ∧ value.bytes.length ≤ maxComplexStringLength

namespace Sized
variable {keyStore : Store}

theorem withHasher (hasher : Bytes → UInt64) : Sized (.withHasher hasher) :=
  ⟨fun _ => none, KeyStore.withHasher_holds hasher, fun _ _ h => by cases h⟩

theorem get (h : Sized keyStore) (key : Bytes) : CompletesAlways (liftM (keyStore.get key))
    (fun found => ∀ value, found = some value → value.bytes.length ≤ maxComplexStringLength) := by
  obtain ⟨m, hm, hsized⟩ := h
  apply YieldsAlways.lift
  rw [KeyStore.get_spec hm key]
  intro value hvalue
  exact (hsized key value hvalue).2

theorem insert (h : Sized keyStore) {key : Bytes} {value : StoredValue}
    (hkey : key.length ≤ maxComplexStringLength)
    (hvalue : value.bytes.length ≤ maxComplexStringLength) :
    CompletesAlways (liftM (keyStore.insert key value)) (fun r => Sized r.2) := by
  obtain ⟨m, hm, hsized⟩ := h
  apply YieldsAlways.lift
  apply Yields.mono (KeyStore.insert_spec hm key value)
  intro r hr
  refine ⟨_, hr.2, forall_update hsized (fun value' heq => ?_)⟩
  cases heq
  exact ⟨hkey, hvalue⟩

theorem del (h : Sized keyStore) (key : Bytes) :
    CompletesAlways (liftM (keyStore.del key)) (fun r => Sized r.2) := by
  obtain ⟨m, hm, hsized⟩ := h
  obtain ⟨keyStore', hrun, h', _⟩ := KeyStore.del_spec hm key
  apply YieldsAlways.lift
  rw [hrun]
  exact ⟨_, h', forall_update hsized (fun value' heq => by cases heq)⟩

/-- Changing a deadline. -/
theorem setExpiresAt (h : Sized keyStore) (key : Bytes) (timestamp : UInt64) :
    CompletesAlways (liftM (keyStore.getMut key
      (fun value => { value with expiresAt := some timestamp }))) (fun r => Sized r.2) := by
  obtain ⟨m, hm, hsized⟩ := h
  obtain ⟨keyStore', hrun, h', _⟩ := KeyStore.getMut_spec hm key
    (fun value => { value with expiresAt := some timestamp })
  apply YieldsAlways.lift
  rw [hrun]
  refine ⟨_, h', forall_update hsized (fun value' heq => ?_)⟩
  obtain ⟨value, hvalue, rfl⟩ := Option.map_eq_some_iff.mp heq
  exact hsized key value hvalue

theorem iter (h : Sized keyStore) : keyStore.iter.length < 2^63 ∧
    ∀ pair ∈ keyStore.iter, pair.1.length ≤ maxComplexStringLength ∧
      pair.2.bytes.length ≤ maxComplexStringLength := by
  obtain ⟨m, hm, hsized⟩ := h
  constructor
  · have hload := hm.load
    have hlen := hm.len_eq
    have hcapacity := hm.capacity.le
    omega
  · intro pair hpair
    exact hsized pair.1 pair.2 (hm.lists.mem_iff.mp hpair)

end Sized

namespace Command

/-! Reads. -/

section Reads
variable {keyStore : Store}

theorem applyGet_safe (h : Sized keyStore) (key : Bytes) :
    CompletesAlways (applyGet key keyStore) Response.Wire := by
  unfold applyGet
  apply YieldsAlways.bind (h.get key)
  intro found hfound
  cases found with
  | none => exact YieldsAlways.pure .null
  | some value =>
    apply YieldsAlways.bind (isExpired_always value)
    intro expired _
    apply YieldsAlways.pure
    cases expired
    · exact .cstr (hfound value rfl)
    · exact .null

theorem applyGetall_safe (h : Sized keyStore) :
    CompletesAlways (applyGetall keyStore) Response.Wire := by
  obtain ⟨hcount, hpairs⟩ := h.iter
  unfold applyGetall
  apply YieldsAlways.bind (YieldsAlways.mapM
    (Q := fun pair : Option Response => ∀ response, pair = some response → response.Wire) ?_)
  · intro pairs ⟨hlen, hwire⟩
    apply YieldsAlways.pure
    apply Response.Wire.array
    · exact Nat.lt_of_le_of_lt (List.reduceOption_length_le pairs) (by omega)
    · intro response hresponse
      exact hwire _ (List.reduceOption_mem_iff.mp hresponse) response rfl
  · intro (key, value) hpair
    obtain ⟨hkey, hvalue⟩ := hpairs (key, value) hpair
    apply YieldsAlways.bind (isExpired_always value)
    intro expired _
    apply YieldsAlways.pure
    cases expired
    · intro response hresponse
      cases hresponse
      apply Response.Wire.array (by simp)
      intro response hmem
      rcases List.mem_pair.mp hmem with rfl | rfl
      · exact .cstr hkey
      · exact .cstr hvalue
    · intro response hresponse
      cases hresponse

theorem applyTtl_safe (h : Sized keyStore) (key : Bytes) :
    CompletesAlways (applyTtl key keyStore) Response.Wire := by
  unfold applyTtl
  apply YieldsAlways.bind (h.get key)
  intro found _
  cases found with
  | none => exact YieldsAlways.pure (.integer _)
  | some value =>
    apply YieldsAlways.bind (isExpired_always value)
    intro expired _
    apply YieldsAlways.ite
    · intro _
      exact YieldsAlways.pure (.integer _)
    · intro _
      cases value.expiresAt with
      | none => exact YieldsAlways.pure (.integer _)
      | some d => exact YieldsAlways.pure (.integer _)

theorem applyRead_safe (h : Sized keyStore) {command : Command} (hsized : command.WellSized)
    (hread : command.isWriteOp = false) :
    CompletesAlways (command.applyRead keyStore) Response.Wire := by
  cases command with
  | get key => exact applyGet_safe h key
  | getAll => exact applyGetall_safe h
  | ttl key => exact applyTtl_safe h key
  | mget keys =>
    apply YieldsAlways.bind (YieldsAlways.mapM (fun key _ => applyGet_safe h key))
    intro responses ⟨hlen, hwire⟩
    have hkeys : keys.length + 1 ≤ maxArrayLength := hsized.elements
    apply YieldsAlways.pure
    apply Response.Wire.array
    · unfold maxArrayLength at hkeys
      omega
    · exact hwire
  | set | mset | del | expireAt => cases hread

end Reads

/-! Writes. -/

section Writes
variable {keyStore : Store}

theorem ejectIfExpired_safe (h : Sized keyStore) (key : Bytes) :
    CompletesAlways (ejectIfExpired keyStore key) Sized := by
  unfold ejectIfExpired
  apply YieldsAlways.bind (h.get key)
  intro found _
  cases found with
  | none => exact YieldsAlways.pure h
  | some value =>
    apply YieldsAlways.bind (isExpired_always value)
    intro expired _
    apply YieldsAlways.ite
    · intro _
      exact YieldsAlways.bind (h.del key) (fun _ hr => YieldsAlways.pure hr)
    · intro _
      exact YieldsAlways.pure h

/-- The keys and values a command brings are within the limits. -/
theorem WellSized.entry {entries : List (Bytes × Bytes)} (h : (mset entries).WellSized)
    {entry : Bytes × Bytes} (hentry : entry ∈ entries) :
    entry.1.length ≤ maxComplexStringLength ∧ entry.2.length ≤ maxComplexStringLength := by
  constructor
  · apply h.element
    exact List.mem_cons_of_mem _ (List.mem_flatMap.mpr ⟨entry, hentry, by simp⟩)
  · apply h.element
    exact List.mem_cons_of_mem _ (List.mem_flatMap.mpr ⟨entry, hentry, by simp⟩)

theorem applyWrite_safe (h : Sized keyStore) {command : Command} (hsized : command.WellSized)
    (hwrite : command.isWriteOp = true) :
    CompletesAlways (command.applyWrite keyStore) (fun (response, keyStore) =>
      response.Wire ∧ Sized keyStore) := by
  cases command with
  | set key value =>
    have hkey : key.length ≤ maxComplexStringLength := hsized.element key (by simp [parts])
    have hvalue : value.length ≤ maxComplexStringLength := hsized.element value (by simp [parts])
    exact YieldsAlways.bind (h.insert hkey hvalue) (fun _ hr => YieldsAlways.pure ⟨.ok, hr⟩)
  | mset entries =>
    apply YieldsAlways.bind (YieldsAlways.foldlM Sized ?_ keyStore h)
    · intro keyStore hr
      exact YieldsAlways.pure ⟨.ok, hr⟩
    · intro keyStore entry hentry hr
      obtain ⟨hkey, hvalue⟩ := hsized.entry hentry
      exact YieldsAlways.bind (hr.insert hkey hvalue) (fun _ hi => YieldsAlways.pure hi)
  | del keys =>
    apply YieldsAlways.bind (YieldsAlways.foldlM (fun r => Sized r.2) ?_ (0, keyStore) h)
    · intro r hr
      exact YieldsAlways.pure ⟨.integer _, hr⟩
    · intro (count, keyStore) key _ hr
      apply YieldsAlways.bind (ejectIfExpired_safe hr key)
      intro ejected he
      exact YieldsAlways.bind (he.del key) (fun _ hd => YieldsAlways.pure hd)
  | expireAt key timestamp =>
    apply YieldsAlways.bind (ejectIfExpired_safe h key)
    intro ejected he
    apply YieldsAlways.bind (he.setExpiresAt key timestamp)
    intro (old, keyStore) hr
    cases old with
    | none => exact YieldsAlways.pure ⟨.integer _, hr⟩
    | some value => exact YieldsAlways.pure ⟨.integer _, hr⟩
  | get | mget | getAll | ttl => cases hwrite

end Writes
end Command

namespace ServerState
open Command

theorem removeExpired_safe {self : ServerState} (h : Sized self.keyStore) :
    CompletesAlways self.removeExpired (fun (_, self') => Sized self'.keyStore) := by
  unfold removeExpired
  apply YieldsAlways.bind (YieldsAlways.mapM (Q := fun _ => True) ?_)
  · intro keys _
    apply YieldsAlways.bind (YieldsAlways.foldlM Sized ?_ self.keyStore h)
    · intro keyStore hr
      exact YieldsAlways.pure hr
    · intro keyStore key _ hr
      exact YieldsAlways.bind (hr.del key) (fun _ hd => YieldsAlways.pure hd)
  · intro (key, value) _
    apply YieldsAlways.bind (isExpired_always value)
    intro expired _
    exact YieldsAlways.pure trivial

end ServerState
end SimpleKv
