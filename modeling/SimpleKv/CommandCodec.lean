import SimpleKv.CommandParsing
import SimpleKv.RequestReading

/- Commands as records. `Command.toBytes` is the encoding of the request whose elements
   are the command's parts, and these spell the command: within the limits, records
   are read back one by one as the commands they were written for. Whatever the
   server accepts from a client is within the limits. -/
namespace SimpleKv
open Incremental Request RequestReader Reader

namespace Command

/-- The elements of a command as a request. -/
def toRequest (self : Command) : Request := ⟨self.parts⟩

structure WellSized (c : Command) : Prop where
  nonempty : c.Nonempty
  elements : c.parts.length ≤ maxArrayLength
  element : ∀ part ∈ c.parts, part.length ≤ maxComplexStringLength

instance : DecidablePred WellSized := fun c =>
  decidable_of_iff (c.Nonempty ∧ c.parts.length ≤ maxArrayLength ∧
      ∀ part ∈ c.parts, part.length ≤ maxComplexStringLength)
    ⟨fun h => ⟨h.1, h.2.1, h.2.2⟩, fun h => ⟨h.nonempty, h.elements, h.element⟩⟩

theorem toBytes_eq (self : Command) : self.toBytes = self.toRequest.toBytes := by
  unfold toBytes Request.toBytes toRequest
  simp only [asBytes_append, List.append_assoc]
  rfl

theorem WellSized.encodes {self : Command} (h : self.WellSized) :
    frame.Encodes self.toRequest self.toBytes := by
  rw [toBytes_eq]
  exact frame_encodes ⟨h.elements, h.element⟩

/-- The records of commands, one after the other. -/
def records (commands : List Command) : Bytes := commands.flatMap toBytes

theorem records_append (commands commands' : List Command) :
    records (commands ++ commands') = records commands ++ records commands' :=
  List.flatMap_append

theorem records_eq (commands : List Command) :
    records commands = (commands.map toRequest).flatMap Request.toBytes := by
  unfold records
  rw [List.flatMap_map]
  exact List.flatMap_congr (fun c _ => toBytes_eq c)

/-- The requests of a stream that starts with records. -/
theorem drains_records_append {commands : List Command} (h : ∀ c ∈ commands, c.WellSized)
    {s : Bytes} {requests : List Request} {d : End RequestParseError}
    (hs : Drains frame s requests d) :
    Drains frame (records commands ++ s) (commands.map toRequest ++ requests) d := by
  rw [records_eq]
  refine Drains.append (fun request hr => ?_) hs
  obtain ⟨c, hc, rfl⟩ := List.mem_map.mp hr
  rw [← toBytes_eq]
  exact (h c hc).encodes

theorem drains_records {commands : List Command} (h : ∀ c ∈ commands, c.WellSized) :
    Drains frame (records commands) (commands.map toRequest) .clean := by
  have := drains_records_append h (.clean frame_nil)
  rwa [List.append_nil, List.append_nil] at this

/-- The requests of `reader`, each parsed to a command, and how it ended. -/
def readCommands (reader : RequestReader) :
    Clocked (List (Except CommandError Command) × Option RequestParseError) := do
  let (requests, ending) ← readAll readNext reader
  return (← requests.mapM tryFrom, ending)

theorem mapM_tryFrom : ∀ {commands : List Command} (clock : Clock), (∀ c ∈ commands, c.Nonempty) →
    ∃ clock', ((commands.map toRequest).mapM tryFrom).run clock =
      .ok (commands.map .ok, clock') := by
  intro commands
  induction commands with
  | nil =>
    intro clock h
    exact ⟨clock, rfl⟩
  | cons c commands ih =>
    intro clock h
    obtain ⟨clock', hc, _⟩ := tryFrom_run c.toRequest clock
    rw [toRequest, command_parts _ (h c List.mem_cons_self)] at hc
    obtain ⟨clock'', hrest⟩ :=
      ih clock' (fun c' hc' => h c' (List.mem_cons_of_mem _ hc'))
    refine ⟨clock'', ?_⟩
    rw [List.map_cons, List.mapM_cons, StateT.run_bind, toRequest, hc]
    show (do let p ← ((commands.map toRequest).mapM tryFrom).run clock'; _) = _
    rw [hrest]
    rfl

/-- The command of an accepted request is within the limits. -/
theorem wellSized_of_command {now : UInt64} {request : Request} (hlimits : request.WithinLimits)
    {c : Command} (h : request.command now = .ok c) : c.WellSized := by
  obtain ⟨hne, hparts⟩ := command_ok h
  rcases hparts with hparts | ⟨key, text, n, _, hspelled⟩
  · refine ⟨hne, ?_, ?_⟩
    · rw [hparts]; exact hlimits.1
    · rw [hparts]; exact hlimits.2
  · -- the name and the deadline are short, and the key is an element of the request
    have hkey : key ∈ request.cstrs := by
      rcases hspelled with ⟨hcstrs, _⟩ | ⟨hcstrs, _⟩ <;> rw [hcstrs] <;> simp
    obtain ⟨timestamp, rfl⟩ : ∃ timestamp, c = .expireAt key timestamp := by
      rcases hspelled with ⟨_, rfl⟩ | ⟨_, rfl⟩ <;> exact ⟨_, rfl⟩
    refine ⟨hne, show 3 ≤ maxArrayLength by decide, fun part hpart => ?_⟩
    rcases List.mem_cons.mp hpart with rfl | hpart
    · exact show (asBytes expireatName).length ≤ maxComplexStringLength by decide
    rcases List.mem_cons.mp hpart with rfl | hpart
    · exact hlimits.2 _ hkey
    · rw [List.mem_singleton.mp hpart, asBytes_toString]
      have hlt : timestamp.toNat < 10^20 := Nat.lt_trans timestamp.toNat_lt (by decide)
      exact Nat.le_trans (decimal_length_le (by decide) hlt) (by decide)

/-- A write command that `try_from` made of an accepted request. -/
def AcceptedWrite (c : Command) : Prop :=
  c.isWriteOp = true ∧ ∃ request clock clock', Accepted request ∧
    (tryFrom request).run clock = .ok (.ok c, clock')

theorem wellSized_of_tryFrom {request : Request} {c : Command} {clock clock' : Clock}
    (haccepted : Accepted request) (hrun : (tryFrom request).run clock = .ok (.ok c, clock')) :
    c.WellSized := by
  obtain ⟨clock'', hc, _⟩ := tryFrom_run request clock
  rw [hc] at hrun
  exact wellSized_of_command haccepted.withinLimits (Prod.mk.inj (Except.ok.inj hrun)).1

theorem AcceptedWrite.wellSized {c : Command} (h : c.AcceptedWrite) : c.WellSized := by
  obtain ⟨_, request, clock, clock', haccepted, hrun⟩ := h
  exact wellSized_of_tryFrom haccepted hrun

theorem acceptedWrite_of_wellSized {c : Command} (hwrite : c.isWriteOp = true)
    (h : c.WellSized) : c.AcceptedWrite := by
  have hrun := tryFrom_const c.toRequest 0
  rw [toRequest, command_parts 0 h.nonempty] at hrun
  exact ⟨hwrite, c.toRequest, _, _, accepted_of_withinLimits ⟨h.elements, h.element⟩, hrun⟩

/-- Records within the limits are read back as their commands, with a clean end; and
    what a client's request is parsed to is within the limits. -/
theorem records_round_trip :
    (∀ (commands : List Command) (source : Source) (clock : Clock),
      (∀ c ∈ commands, c.WellSized) → (∀ chunk ∈ source, chunk ≠ []) →
      source.flatten = records commands →
      ∃ clock', (readCommands (new source)).run clock =
        .ok ((commands.map .ok, none), clock')) ∧
    (∀ (request : Request) (c : Command) (clock clock' : Clock), Accepted request →
      (tryFrom request).run clock = .ok (.ok c, clock') → c.WellSized) := by
  constructor
  · intro commands source clock hsized hne hflat
    have hd := drains_records hsized
    rw [← hflat] at hd
    obtain ⟨clock', hm⟩ := mapM_tryFrom clock (fun c hc => (hsized c hc).nonempty)
    refine ⟨clock', ?_⟩
    unfold readCommands
    rw [readAll_spec hne hd]
    show (do let p ← ((commands.map toRequest).mapM tryFrom).run clock; _) = _
    rw [hm]
    rfl
  · intro request c clock clock' haccepted hrun
    exact wellSized_of_tryFrom haccepted hrun

/-- A key that is a CRLF and a value that is a prefix byte, cut inside the key; and an
    `EXPIRE` at 7. -/
theorem records_round_trip_crlf :
    (∃ clock', (readCommands (new [asBytes "*3\r\n$3\r\nSET\r\n$2\r\n\r",
        asBytes "\n\r\n$1\r\n$\r\n"])).run (Stream'.const 0) =
      .ok (([.set [13, 10] [36]].map .ok, none), clock')) ∧
    (expireAt [97] 12).WellSized :=
  ⟨records_round_trip.1 [.set [13, 10] [36]] _ _ (by decide) (by decide) (by decide),
    records_round_trip.2 ⟨[asBytes "EXPIRE", [97], asBytes "5"]⟩ _ (Stream'.const 7) _
      (accepted_of_withinLimits ⟨by decide, by decide⟩) rfl⟩

end Command
end SimpleKv
