import SimpleKv.CommandMap
import SimpleKv.Lib.Readings

/- Multi-key reads while time passes. `MGET` and `GETALL` ask the clock anew for every
   deadline they meet, so that each key is answered as of an instant of its own; the
   response as a whole is that of a single instant unless a deadline that had not come
   when it was looked at is followed by one that is no earlier and had come. -/
namespace SimpleKv
open Outcome PartialMap Expiring Readings

instance totalUInt64 : Std.Total (fun a b : UInt64 => a ≤ b) := ⟨UInt64.le_total⟩

/-- The deadline of what is bound to a key. -/
def deadlineOf (m : Bindings) (key : Bytes) : Option UInt64 := (m key).bind StoredValue.expiresAt

/-- A value with a deadline takes one reading. -/
theorem StoredValue.isExpired_run (value : StoredValue) (clock : Clock) :
    value.isExpired.run clock = .ok (decide ¬value.LiveAt clock.head,
      if value.expiresAt.isSome then clock.tail else clock) := by
  unfold isExpired
  cases h : value.expiresAt with
  | none => simp [Live, h]; rfl
  | some d => simp [Live, h]; rfl

namespace Command

section Looks
variable {keyStore : Store} {m : Bindings}

theorem applyGet_run (h : keyStore.Holds m) (key : Bytes) (clock : Clock) :
    (applyGet key keyStore).run clock = .ok (shown clock.head m key,
      if (deadlineOf m key).isSome then clock.tail else clock) := by
  unfold applyGet shown deadlineOf
  rw [KeyStore.get_spec h key]
  cases hm : m key with
  | none =>
    rw [visibleAt_absent hm]
    rfl
  | some value =>
    show (do let p ← value.isExpired.run clock; _) = _
    rw [value.isExpired_run clock]
    by_cases hl : value.LiveAt clock.head
    · rw [visibleAt_live hm hl]
      simp [hl]; rfl
    · rw [visibleAt_expired hm hl]
      simp [hl]; rfl

theorem live_deadlineOf {key : Bytes} {value : StoredValue} (hm : m key = some value) (t : UInt64) :
    Live (deadlineOf m) t key ↔ value.LiveAt t := by
  unfold Live deadlineOf
  rw [hm]
  rfl

/-- A key is answered alike at two instants if it is visible at both or at none. -/
theorem shown_eq_iff {t t' : UInt64} {key : Bytes} : shown t m key = shown t' m key ↔
    (Live (deadlineOf m) t key ↔ Live (deadlineOf m) t' key) := by
  unfold shown
  cases hm : m key with
  | none => simp [visibleAt_absent hm, Live, deadlineOf, hm]
  | some value =>
    rw [live_deadlineOf hm, live_deadlineOf hm]
    by_cases ht : value.LiveAt t <;> by_cases ht' : value.LiveAt t' <;>
      simp [visibleAt_live hm, visibleAt_expired hm, ht, ht']

/-- `MGET` as a scan of its keys. -/
theorem applyMget_scan (h : keyStore.Holds m) (keys : List Bytes) {clock : Clock}
    (hclock : Forward clock) : ∃ instants,
      Instants clock (keys.countP (fun key => (deadlineOf m key).isSome)) keys instants ∧
      (applyMget keys keyStore).run clock =
        .ok (.array (List.zipWith (fun t key => shown t m key) instants keys),
          clock.drop (keys.countP (fun key => (deadlineOf m key).isSome))) := by
  -- without a deadline a key is visible at all times or at none
  have hstatic : ∀ key, (deadlineOf m key).isSome = false → ∀ t t', shown t m key = shown t' m key := by
    intro key hkey t t'
    rw [shown_eq_iff]
    unfold Live
    rw [Option.not_isSome_iff_eq_none.mp (Bool.eq_false_iff.mp hkey)]
    simp
  obtain ⟨instants, hinstants, hrun⟩ :=
    mapM_scan hstatic (fun key _ c => applyGet_run h key c) hclock
  refine ⟨instants, hinstants, ?_⟩
  unfold applyMget
  rw [StateT.run_bind, hrun]
  rfl

theorem mget_one_instant_iff {keys : List Bytes} {instants : List UInt64} {clock : Clock} {n : Nat}
    (hclock : Forward clock) (h : Instants clock n keys instants) :
    (∃ t, During clock n t ∧ Answers t m (.mget keys)
      (.array (List.zipWith (fun t key => shown t m key) instants keys))) ↔
      ¬Torn (deadlineOf m) (instants.zip keys) := by
  rw [← exists_instant_iff (hclock.head_le n)
    (fun look hlook => h.during look.1 (List.of_mem_zip hlook).1)]
  refine exists_congr (fun t => and_congr_right (fun _ => ?_))
  show Response.array _ = Response.array _ ↔ _
  rw [Response.array.injEq, zipWith_eq_map h.length]
  exact forall₂_congr (fun look _ => shown_eq_iff)

/-- What `GETALL` makes of a pair at `t`. -/
def pairAt (t : UInt64) (pair : Bytes × StoredValue) : Option Response :=
  if pair.2.LiveAt t then some (.array [.cstr pair.1, .cstr pair.2.bytes]) else none

theorem pairAt_eq_some {t : UInt64} {pair : Bytes × StoredValue} {response : Response} :
    pairAt t pair = some response ↔
      pair.2.LiveAt t ∧ response = .array [.cstr pair.1, .cstr pair.2.bytes] := by
  unfold pairAt
  by_cases h : pair.2.LiveAt t <;> simp [h, eq_comm]

theorem mem_scanned {l : List (Bytes × StoredValue)} {instants : List UInt64} {response : Response} :
    response ∈ (List.zipWith pairAt instants l).reduceOption ↔ ∃ look ∈ instants.zip l,
      look.2.2.LiveAt look.1 ∧ response = .array [.cstr look.2.1, .cstr look.2.2.bytes] := by
  rw [List.reduceOption_mem_iff, ← List.map_uncurry_zip_eq_zipWith, List.mem_map]
  exact exists_congr (fun look => and_congr_right (fun _ => pairAt_eq_some))

/-- `GETALL` as a scan of the pairs. -/
theorem applyGetall_scan {clock : Clock} (hclock : Forward clock) : ∃ instants,
      Instants clock (keyStore.iter.countP (fun pair => pair.2.expiresAt.isSome))
        keyStore.iter instants ∧
      (applyGetall keyStore).run clock =
        .ok (.array (List.zipWith pairAt instants keyStore.iter).reduceOption,
          clock.drop (keyStore.iter.countP (fun pair => pair.2.expiresAt.isSome))) := by
  have hstatic : ∀ pair : Bytes × StoredValue, pair.2.expiresAt.isSome = false →
      ∀ t t', pairAt t pair = pairAt t' pair := by
    intro pair hpair t t'
    simp [pairAt, Live, Option.not_isSome_iff_eq_none.mp (Bool.eq_false_iff.mp hpair)]
  have hpair : ∀ pair ∈ keyStore.iter, ∀ c : Clock, StateT.run (do
      return if ← pair.2.isExpired then none
        else some (Response.array [.cstr pair.1, .cstr pair.2.bytes]) : Clocked _) c =
      .ok (pairAt c.head pair, if pair.2.expiresAt.isSome then c.tail else c) := by
    intro pair _ c
    show (do let p ← pair.2.isExpired.run c; _) = _
    rw [pair.2.isExpired_run c]
    unfold pairAt
    by_cases hl : pair.2.LiveAt c.head <;> simp [hl] <;> rfl
  obtain ⟨instants, hinstants, hrun⟩ := mapM_scan hstatic hpair hclock
  refine ⟨instants, hinstants, ?_⟩
  unfold applyGetall
  rw [StateT.run_bind]
  show (do let p ← (keyStore.iter.mapM (fun pair => do
      return if ← pair.2.isExpired then none
        else some (Response.array [.cstr pair.1, .cstr pair.2.bytes]) :
      Bytes × StoredValue → Clocked _)).run clock; _) = _
  rw [hrun]
  rfl

/-- A pair is looked at once. -/
theorem look_unique {l : List (Bytes × StoredValue)} (hl : Lists l m) {instants : List UInt64}
    (hlen : instants.length = l.length) {look look' : UInt64 × Bytes × StoredValue}
    (hlook : look ∈ instants.zip l) (hlook' : look' ∈ instants.zip l)
    (hkey : look.2.1 = look'.2.1) : look = look' := by
  have hdistinct : ((instants.zip l).map (fun look => look.2.1)).Nodup := by
    have hmap := congrArg (List.map Prod.fst) (List.map_snd_zip (Nat.le_of_eq hlen.symm))
    rw [List.map_map] at hmap
    rw [show (fun look : UInt64 × Bytes × StoredValue => look.2.1) = Prod.fst ∘ Prod.snd from rfl,
      hmap]
    exact hl.distinct
  exact List.inj_on_of_nodup_map hdistinct hlook hlook' hkey

theorem answers_getAll_iff {l : List (Bytes × StoredValue)} (hl : Lists l m)
    {instants : List UInt64} (hlen : instants.length = l.length) (t : UInt64) :
    Answers t m .getAll (.array (List.zipWith pairAt instants l).reduceOption) ↔
      ∀ look ∈ instants.zip l, (look.2.2.LiveAt look.1 ↔ look.2.2.LiveAt t) := by
  refine ⟨fun hanswers look hlook => ?_, fun hsame => ?_⟩
  · obtain ⟨pairs, hpairs, heq⟩ := hanswers
    rw [Response.array.injEq] at heq
    have hbound := hl.mem_iff.mp (List.of_mem_zip hlook).2
    refine ⟨fun hlive => ?_, fun hlive => ?_⟩
    · have hmem := mem_scanned.mpr ⟨look, hlook, hlive, rfl⟩
      rw [heq] at hmem
      obtain ⟨⟨key, value⟩, hpair, hresponse⟩ := List.mem_map.mp hmem
      simp only [Response.array.injEq, List.cons.injEq, Response.cstr.injEq] at hresponse
      obtain ⟨hvalue, hl⟩ := visible_eq_some.mp (hpairs.mem_iff.mp hpair)
      rw [hresponse.1, hbound] at hvalue
      rw [Option.some.inj hvalue]
      exact hl
    · -- the pair is listed, so some look saw it, and that can only be this one
      have hpair := hpairs.mem_iff.mpr (visibleAt_live hbound hlive)
      have hmem : Response.array [.cstr look.2.1, .cstr look.2.2.bytes] ∈
          (List.zipWith pairAt instants l).reduceOption := by
        rw [heq]
        exact List.mem_map.mpr ⟨_, hpair, rfl⟩
      obtain ⟨look', hlook', hlive', hresponse⟩ := mem_scanned.mp hmem
      simp only [Response.array.injEq, List.cons.injEq, Response.cstr.injEq] at hresponse
      rw [look_unique hl hlen hlook hlook' hresponse.1]
      exact hlive'
  · have hmap : List.zipWith pairAt instants l = l.map (pairAt t) := by
      rw [zipWith_eq_map hlen]
      intro look hlook
      unfold pairAt
      simp only [hsame look hlook]
    refine ⟨_, lists_filter hl, ?_⟩
    rw [hmap]
    exact congrArg Response.array (reduceOption_map_ite
      (fun pair : Bytes × StoredValue => Response.array [.cstr pair.1, .cstr pair.2.bytes])
      (fun pair => pair.2.LiveAt t) l)

theorem getAll_one_instant_iff {l : List (Bytes × StoredValue)} (hl : Lists l m)
    {instants : List UInt64} {clock : Clock} {n : Nat} (hclock : Forward clock)
    (h : Instants clock n l instants) :
    (∃ t, During clock n t ∧
      Answers t m .getAll (.array (List.zipWith pairAt instants l).reduceOption)) ↔
      ¬Torn (fun pair => pair.2.expiresAt) (instants.zip l) := by
  rw [← exists_instant_iff (hclock.head_le n)
    (fun look hlook => h.during look.1 (List.of_mem_zip hlook).1)]
  exact exists_congr (fun t => and_congr_right (fun _ => answers_getAll_iff hl h.length t))

/-- A multi-key read looks at every key at an instant of its own, in order and during the
    call, and answers what the store shows there. All of them could have been one instant
    unless a deadline that was still to come at its look is followed by one that is no
    earlier and had come. -/
theorem multiKeyRead_instants (h : keyStore.Holds m) {clock : Clock} (hclock : Forward clock) :
    (∀ keys, ∃ n instants response, (applyMget keys keyStore).run clock = .ok (response, clock.drop n) ∧
      n = keys.countP (fun key => (deadlineOf m key).isSome) ∧ Instants clock n keys instants ∧
      response = .array (List.zipWith (fun t key => shown t m key) instants keys) ∧
      ((∃ t, During clock n t ∧ Answers t m (.mget keys) response) ↔
        ¬Torn (deadlineOf m) (instants.zip keys))) ∧
    (∃ n instants response, (applyGetall keyStore).run clock = .ok (response, clock.drop n) ∧
      Lists keyStore.iter m ∧ n = keyStore.iter.countP (fun pair => pair.2.expiresAt.isSome) ∧
      Instants clock n keyStore.iter instants ∧
      response = .array (List.zipWith pairAt instants keyStore.iter).reduceOption ∧
      ((∃ t, During clock n t ∧ Answers t m .getAll response) ↔
        ¬Torn (fun pair => pair.2.expiresAt) (instants.zip keyStore.iter))) := by
  refine ⟨fun keys => ?_, ?_⟩
  · obtain ⟨instants, hinstants, hrun⟩ := applyMget_scan h keys hclock
    exact ⟨_, instants, _, hrun, rfl, hinstants, rfl, mget_one_instant_iff hclock hinstants⟩
  · obtain ⟨instants, hinstants, hrun⟩ := @applyGetall_scan keyStore _ hclock
    exact ⟨_, instants, _, hrun, h.lists, rfl, hinstants, rfl,
      getAll_one_instant_iff h.lists hclock hinstants⟩

end Looks

/-- A store with two keys whose deadlines come together. -/
theorem exists_two_deadlines : ∃ keyStore : Store, keyStore.Holds
    (Function.update (Function.update (fun _ => none) [97] (some ⟨[98], some 10⟩))
      [99] (some ⟨[100], some 10⟩)) := by
  obtain ⟨first, second, hfirst, hsecond⟩ : ∃ first second : Store,
      KeyStore.insert (KeyStore.withHasher (fun _ => 0)) [97] (StoredValue.mk [98] (some 10)) =
        .ok (none, first) ∧
      KeyStore.insert first [99] (StoredValue.mk [100] (some 10)) = .ok (none, second) :=
    ⟨_, _, rfl, rfl⟩
  have h := (Yields.of_ok (KeyStore.insert_spec (KeyStore.withHasher_holds _) _ _) hfirst).2
  exact ⟨second, (Yields.of_ok (KeyStore.insert_spec h _ _) hsecond).2⟩

/-- The clock that shows 9 once and 10 from then on. -/
theorem forward_tick : Forward (Stream'.cons 9 (Stream'.const (10 : UInt64)))
  | 0 => by decide
  | _+1 => UInt64.le_refl _

/-- The second ticks between the two keys: the first is still shown, the second is gone. -/
theorem multiKeyRead_instants_tick : ∃ keyStore m, KeyStore.Holds keyStore m ∧
    (∀ keys, ∃ n instants response,
      (applyMget keys keyStore).run (Stream'.cons 9 (Stream'.const (10 : UInt64))) =
        .ok (response, (Stream'.cons 9 (Stream'.const 10)).drop n) ∧
      n = keys.countP (fun key => (deadlineOf m key).isSome) ∧
      Instants (Stream'.cons 9 (Stream'.const 10)) n keys instants ∧
      response = .array (List.zipWith (fun t key => shown t m key) instants keys) ∧
      ((∃ t, During (Stream'.cons 9 (Stream'.const 10)) n t ∧ Answers t m (.mget keys) response) ↔
        ¬Torn (deadlineOf m) (instants.zip keys))) ∧
    (∃ n instants response,
      (applyGetall keyStore).run (Stream'.cons 9 (Stream'.const (10 : UInt64))) =
        .ok (response, (Stream'.cons 9 (Stream'.const 10)).drop n) ∧
      Lists keyStore.iter m ∧ n = keyStore.iter.countP (fun pair => pair.2.expiresAt.isSome) ∧
      Instants (Stream'.cons 9 (Stream'.const 10)) n keyStore.iter instants ∧
      response = .array (List.zipWith pairAt instants keyStore.iter).reduceOption ∧
      ((∃ t, During (Stream'.cons 9 (Stream'.const 10)) n t ∧ Answers t m .getAll response) ↔
        ¬Torn (fun pair => pair.2.expiresAt) (instants.zip keyStore.iter))) := by
  obtain ⟨keyStore, h⟩ := exists_two_deadlines
  exact ⟨keyStore, _, h, multiKeyRead_instants h forward_tick⟩

/-- It is the response of no single instant. -/
theorem mget_of_two_instants : ∃ keyStore m clock response, KeyStore.Holds keyStore m ∧
    Forward clock ∧ (applyMget [[97], [99]] keyStore).run clock = .ok (response, clock.drop 2) ∧
    ¬∃ t, Answers t m (.mget [[97], [99]]) response := by
  obtain ⟨keyStore, h⟩ := exists_two_deadlines
  refine ⟨keyStore, _, Stream'.cons 9 (Stream'.const 10), .array [.cstr [98], .null], h,
    forward_tick, ?_, fun hone => ?_⟩
  · simp only [applyMget, List.mapM_cons, List.mapM_nil, StateT.run_bind, applyGet_run h]
    rfl
  · obtain ⟨t, ht⟩ := hone
    simp only [Answers, List.map_cons, List.map_nil, Response.array.injEq, List.cons.injEq] at ht
    obtain ⟨hshown, hgone, _⟩ := ht
    -- both deadlines are 10, so both keys are visible at `t` or none is
    by_cases hlive : t < 10
    · simp [shown, visible, Live, Option.filter, hlive] at hgone
    · simp [shown, visible, Live, Option.filter, hlive] at hshown

end Command
end SimpleKv
