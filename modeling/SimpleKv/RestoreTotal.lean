import SimpleKv.CommandSafety
import SimpleKv.Restore

/- When replay is total. Parsing never fails on its `expect`s and the decoder never
   slices out of bounds, whatever the file holds and whatever the clock shows; but
   the loop of `restore_keystore` hands every command to `apply_write`, whose arm for
   reads is `unreachable!`. So replay panics exactly on the files that hold a read
   command before their first error. -/
namespace SimpleKv
open Incremental Outcome Request

namespace ServerState
open Command

/-- No request parses to a read command, up to the first that does not parse. -/
def OnlyWrites : List Request → Prop
  | [] => True
  | request :: requests =>
    match request.command 0 with
    | .error _ => True
    | .ok command => command.isWriteOp = true ∧ OnlyWrites requests

theorem onlyWrites_cons {request : Request} {requests : List Request} (now : UInt64) :
    OnlyWrites (request :: requests) ↔
      ∀ command, request.command now = .ok command →
        command.isWriteOp = true ∧ OnlyWrites requests := by
  have hkind := request.isWriteOp_command now 0
  rw [OnlyWrites]
  cases h0 : request.command 0 with
  | error e =>
    cases hn : request.command now with
    | error e' => exact iff_of_true trivial (fun _ h => by cases h)
    | ok command => rw [h0, hn] at hkind; cases hkind
  | ok command =>
    cases hn : request.command now with
    | error e' => rw [h0, hn] at hkind; cases hkind
    | ok command' =>
      rw [h0, hn] at hkind
      have hwrite : command'.isWriteOp = command.isWriteOp := Except.ok.inj hkind
      constructor
      · intro h _ hc
        cases hc
        rw [hwrite]
        exact h
      · intro h
        have h' := h command' rfl
        rwa [hwrite] at h'

theorem tryFrom_always {stop : Fault → Prop} (request : Request) :
    YieldsAlways stop (tryFrom request) (fun result => ∃ now, result = request.command now) := by
  intro clock
  obtain ⟨clock', hrun, _⟩ := tryFrom_run request clock
  rw [hrun]
  exact ⟨_, rfl⟩

/-- Where every command writes, replay ends, with a store within the limits if any. -/
theorem replay_total : ∀ {requests : List Request} {d : End RequestParseError} {keyStore : Store},
    OnlyWrites requests → (∀ request ∈ requests, request.WithinLimits) → Sized keyStore →
    CompletesAlways (replay requests d keyStore) (fun result =>
      ∀ keyStore', result = .ok keyStore' → Sized keyStore')
  | [], .clean, _, _, _, h => YieldsAlways.pure (fun _ hk => by cases hk; exact h)
  | [], .cut, _, _, _, _ => YieldsAlways.pure (fun _ hk => by cases hk)
  | [], .failed _, _, _, _, _ => YieldsAlways.pure (fun _ hk => by cases hk)
  | request :: requests, d, keyStore, hw, hlimits, h => by
    rw [replay]
    apply YieldsAlways.bind (tryFrom_always request)
    intro result hresult
    obtain ⟨now, rfl⟩ := hresult
    cases hc : request.command now with
    | error e => exact YieldsAlways.pure (fun _ hk => by cases hk)
    | ok command =>
      obtain ⟨hwrite, hrest⟩ := (onlyWrites_cons now).mp hw command hc
      have hsized := wellSized_of_command (hlimits request List.mem_cons_self) hc
      apply YieldsAlways.bind (applyWrite_safe h hsized hwrite)
      intro r hr
      exact replay_total hrest (fun q hq => hlimits q (List.mem_cons_of_mem _ hq)) hr.2

/-- The panic of `apply_write`, or one for memory before it is reached. -/
def Stuck (f : Fault) : Prop :=
  f.OutOfMemory ∨ f = .unreachable "read command passed to apply_write"

theorem replay_stuck : ∀ {requests : List Request} {d : End RequestParseError} {keyStore : Store},
    ¬OnlyWrites requests → (∀ request ∈ requests, request.WithinLimits) → Sized keyStore →
    YieldsAlways Stuck (replay requests d keyStore) (fun _ => False) := by
  intro requests
  induction requests with
  | nil =>
    intro d keyStore hw hlimits h
    exact absurd trivial hw
  | cons request requests ih =>
    intro d keyStore hw hlimits h
    rw [replay]
    apply YieldsAlways.bind (tryFrom_always request)
    intro result hresult
    obtain ⟨now, rfl⟩ := hresult
    rw [onlyWrites_cons now] at hw
    push Not at hw
    obtain ⟨command, hc, hrest⟩ := hw
    rw [hc]
    by_cases hwrite : command.isWriteOp = true
    · have hsized := wellSized_of_command (hlimits request List.mem_cons_self) hc
      apply YieldsAlways.bind ((applyWrite_safe h hsized hwrite).weaken (fun _ => .inl))
      intro r hr
      exact ih (hrest hwrite) (fun q hq => hlimits q (List.mem_cons_of_mem _ hq)) hr.2
    · -- the arm of `apply_write` for reads
      cases command with
      | get | mget | getAll | ttl => exact fun _ => .inr rfl
      | set | mset | del | expireAt => exact absurd rfl hwrite

/-- The requests of a file are within the limits. -/
theorem withinLimits_of_drains {contents : Bytes} {requests : List Request}
    {d : End RequestParseError} (hd : Drains frame contents requests d) :
    ∀ request ∈ requests, request.WithinLimits := by
  intro request hr
  obtain ⟨s, r, hf⟩ := hd.run_of_mem hr
  exact frame_withinLimits hf

/-- The file holds no read command before its first error. -/
def HoldsOnlyWrites (contents : Bytes) : Prop :=
  ∀ requests d, Drains frame contents requests d → OnlyWrites requests

/-- Memory aside, replay returns a store or an error exactly if the file holds no read
    command before its first error. -/
theorem restoreKeystore_total_iff (contents : Bytes) (hasher : Bytes → UInt64) (clock : Clock) :
    (∃ f, (restoreKeystore ⟨contents⟩ hasher).run clock = .error f ∧ f.OutOfMemory) ∨
    ((∃ r, (restoreKeystore ⟨contents⟩ hasher).run clock = .ok r) ↔ HoldsOnlyWrites contents) := by
  obtain ⟨requests, d, hd⟩ := RequestReader.exists_drains contents
  have hlimits := withinLimits_of_drains hd
  have honly : HoldsOnlyWrites contents ↔ OnlyWrites requests := by
    refine ⟨fun h => h requests d hd, fun h requests' d' hd' => ?_⟩
    rw [← (hd.unique hd').1]
    exact h
  rw [honly, restoreKeystore_eq hd]
  by_cases hw : OnlyWrites requests
  · have htotal := replay_total (d := d) hw hlimits (.withHasher hasher) clock
    cases hrun : (replay requests d (.withHasher hasher)).run clock with
    | ok r => exact .inr (iff_of_true ⟨r, rfl⟩ hw)
    | error f => exact .inl ⟨f, rfl, Yields.of_error htotal hrun⟩
  · have hstuck := replay_stuck (d := d) hw hlimits (.withHasher hasher) clock
    cases hrun : (replay requests d (.withHasher hasher)).run clock with
    | ok r => exact (Yields.of_ok hstuck hrun).elim
    | error f => exact .inr (iff_of_false (fun ⟨_, h⟩ => by cases h) hw)

/-- A file with one `GET` in it. -/
theorem restoreKeystore_get_panics :
    (restoreKeystore ⟨asBytes "*2\r\n$3\r\nGET\r\n$1\r\na\r\n"⟩ (fun _ => 0)).run
      (Stream'.const 0) = .error (.unreachable "read command passed to apply_write") :=
  rfl

/-- A state that `from_wal` returned. -/
def Started (state : ServerState) : Prop := ∃ wal hasher clock clock',
  (fromWal wal hasher).run clock = .ok (state, clock')

/-- Whatever the file held, a server starts with a store within the limits. -/
theorem Started.sized {state : ServerState} (h : Started state) : Sized state.keyStore := by
  obtain ⟨⟨contents⟩, hasher, clock, clock', hrun⟩ := h
  obtain ⟨requests, d, hd⟩ := RequestReader.exists_drains contents
  have hlimits := withinLimits_of_drains hd
  unfold fromWal at hrun
  rw [restoreKeystore_eq hd, StateT.run_bind] at hrun
  by_cases hw : OnlyWrites requests
  · have htotal := replay_total (d := d) hw hlimits (.withHasher hasher) clock
    obtain ⟨⟨result, clock''⟩, hreplay, hrun⟩ := bind_eq_ok.mp hrun
    have hsized := Yields.of_ok htotal hreplay
    cases result with
    | error e => cases hrun
    | ok keyStore =>
      cases hrun
      exact hsized keyStore rfl
  · have hstuck := replay_stuck (d := d) hw hlimits (.withHasher hasher) clock
    obtain ⟨r, hreplay, _⟩ := bind_eq_ok.mp hrun
    exact (Yields.of_ok hstuck hreplay).elim

end ServerState
end SimpleKv
