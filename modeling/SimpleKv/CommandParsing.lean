import SimpleKv.Command

/- What a request spells. `Request.command now` is the pure meaning of `try_from`: the
   checks of the source guarantee what its `expect`s ask for, so parsing always
   returns (`tryFrom_run`), and it depends on the clock through at most one reading.
   Apart from `EXPIRE` and the spelling of a deadline, the elements of the command are
   those of the request (`command_ok`), and the elements of a command spell it
   (`command_parts`). -/
namespace SimpleKv

namespace Request

def oneArg : List Bytes → Except CommandError Bytes
  | [] => .error (.tooFewArguments 1)
  | [arg] => .ok arg
  | args => .error (.tooManyArguments (args.length + 1))

def twoArgs : List Bytes → Except CommandError (Bytes × Bytes)
  | [] => .error (.tooFewArguments 1)
  | [_] => .error (.tooFewArguments 2)
  | [first, second] => .ok (first, second)
  | args => .error (.tooManyArguments (args.length + 1))

def someArgs : List Bytes → Except CommandError (List Bytes)
  | [] => .error (.tooFewArguments 1)
  | args => .ok args

def noArgs : List Bytes → Except CommandError Unit
  | [] => .ok ()
  | args => .error (.tooManyArguments (args.length + 1))

def pairs : List Bytes → List (Bytes × Bytes)
  | key :: value :: rest => (key, value) :: pairs rest
  | _ => []

def pairArgs (args : List Bytes) : Except CommandError (List (Bytes × Bytes)) :=
  if args.length < 2 then .error (.tooFewArguments (args.length + 1))
  else if args.length % 2 ≠ 0 then .error (.unevenArgumentLength args.length)
  else .ok (pairs args)

def seconds (text : Bytes) : Except CommandError Nat :=
  match fromUtf8 text with
  | .error e => .error (.invalidUtf8 e)
  | .ok s =>
    match parseUsize s with
    | .error _ => .error (.invalidExpiration s)
    | .ok n => .ok n

def expiration (args : List Bytes) : Except CommandError (Bytes × Nat) :=
  match twoArgs args with
  | .error e => .error e
  | .ok (key, text) => (fun n => (key, n)) <$> seconds text

/-- The command of a name and its arguments, at `now`. -/
def commandNamed (now : UInt64) (name : String) (args : List Bytes) : Except CommandError Command :=
  if name = getName then .get <$> oneArg args
  else if name = setName then (fun (key, value) => .set key value) <$> twoArgs args
  else if name = mgetName then .mget <$> someArgs args
  else if name = msetName then .mset <$> pairArgs args
  else if name = delName then .del <$> someArgs args
  else if name = getallName then (fun _ => .getAll) <$> noArgs args
  else if name = expireName then
    (fun (key, n) => .expireAt key (Command.saturatingAdd now (UInt64.ofNat n))) <$> expiration args
  else if name = expireatName then
    (fun (key, n) => .expireAt key (UInt64.ofNat n)) <$> expiration args
  else if name = ttlName then .ttl <$> oneArg args
  else .error (.unrecognizedCommand name)

def command (now : UInt64) (self : Request) : Except CommandError Command :=
  match self.cstrs with
  | [] => .error (.tooFewArguments 0)
  | nameBytes :: args =>
    match fromUtf8 nameBytes with
    | .error e => .error (.invalidUtf8 e)
    | .ok name => commandNamed now name args

end Request

namespace Command
open Request

/-- The commands on a list of keys or of pairs have at least one. -/
def Nonempty : Command → Prop
  | .mget keys => keys ≠ []
  | .mset entries => entries ≠ []
  | .del keys => keys ≠ []
  | _ => True

instance : DecidablePred Nonempty
  | .mget keys => inferInstanceAs (Decidable (keys ≠ []))
  | .mset entries => inferInstanceAs (Decidable (entries ≠ []))
  | .del keys => inferInstanceAs (Decidable (keys ≠ []))
  | .get _ | .set _ _ | .getAll | .expireAt _ _ | .ttl _ => .isTrue trivial

/-! The parse functions. -/

theorem parseOneKey_eq (command : Bytes → Command) : ∀ args : List Bytes,
    parseOneKey command args (args.length + 1) = .ok (command <$> oneArg args)
  | [] => rfl
  | [_] => rfl
  | _ :: _ :: _ => rfl

theorem parseSet_eq : ∀ args : List Bytes, parseSet args (args.length + 1) =
    .ok ((fun (key, value) => .set key value) <$> twoArgs args)
  | [] => rfl
  | [_] => rfl
  | [_, _] => rfl
  | _ :: _ :: _ :: _ => rfl

theorem parseMget_eq : ∀ args : List Bytes,
    parseMget args (args.length + 1) = .ok (.mget <$> someArgs args)
  | [] => rfl
  | _ :: _ => rfl

theorem parseDel_eq : ∀ args : List Bytes,
    parseDel args (args.length + 1) = .ok (.del <$> someArgs args)
  | [] => rfl
  | _ :: _ => rfl

theorem parseGetall_eq : ∀ args : List Bytes,
    parseGetall args (args.length + 1) = .ok ((fun _ => .getAll) <$> noArgs args)
  | [] => rfl
  | _ :: _ => rfl

theorem takePairs_eq : ∀ args : List Bytes, args.length % 2 = 0 → takePairs args = .ok (pairs args)
  | [], _ => rfl
  | [_], h => by cases h
  | key :: value :: rest, h => by
    have hrest : rest.length % 2 = 0 := by
      rw [List.length_cons, List.length_cons] at h
      omega
    rw [takePairs, takePairs_eq rest hrest, pairs]
    rfl

theorem parseMset_eq (args : List Bytes) :
    parseMset args (args.length + 1) = .ok (.mset <$> pairArgs args) := by
  unfold parseMset pairArgs
  by_cases hlen : args.length < 2
  · rw [if_pos hlen, if_pos hlen]; rfl
  · by_cases heven : args.length % 2 = 0
    · simp only [hlen, heven, if_false, ne_eq, not_true, takePairs_eq args heven]; rfl
    · simp only [hlen, heven, if_false, if_true, ne_eq, not_false_iff]; rfl

theorem parseExpiration_eq (args : List Bytes) : parseExpiration args (args.length + 1) =
    .ok ((fun e => ⟨e.1, e.2⟩) <$> expiration args) := by
  match args with
  | [] => rfl
  | [_] => rfl
  | [key, text] =>
    unfold expiration seconds
    simp only [parseExpiration, twoArgs]
    cases hu : fromUtf8 text with
    | error e => simp [expect, hu, bind, Except.bind]; rfl
    | ok s =>
      cases hp : parseUsize s with
      | error e => simp [expect, hu, hp, bind, Except.bind]; rfl
      | ok n => simp [expect, hu, hp, bind, Except.bind]; rfl
  | _ :: _ :: _ :: _ => rfl

theorem parseExpireAt_eq (args : List Bytes) : parseExpireAt args (args.length + 1) =
    .ok ((fun (key, n) => .expireAt key (UInt64.ofNat n)) <$> expiration args) := by
  unfold parseExpireAt
  rw [parseExpiration_eq]
  cases expiration args <;> rfl

theorem parseExpire_run (args : List Bytes) (clock : Clock) : ∃ clock',
    (parseExpire args (args.length + 1)).run clock = .ok ((fun (key, n) =>
      .expireAt key (saturatingAdd clock.head (UInt64.ofNat n))) <$> expiration args, clock') ∧
      (clock' = clock ∨ clock' = clock.tail) := by
  unfold parseExpire
  rw [parseExpiration_eq]
  cases expiration args with
  | error e => exact ⟨clock, rfl, .inl rfl⟩
  | ok e => exact ⟨clock.tail, rfl, .inr rfl⟩

theorem liftM_run {α : Type} {x : Rust α} {a : α} (h : x = .ok a) (clock : Clock) :
    (liftM x : Clocked α).run clock = .ok (a, clock) := by
  rw [h]; rfl

theorem expect_some_bind {α β : Type} (msg : String) (a : α) (f : α → Clocked β) :
    ((do let a ← liftM (expect msg (some a)); f a) : Clocked β) = f a := rfl

/-- Parsing a request returns what the request spells at the reading of the clock. -/
theorem tryFrom_run (request : Request) (clock : Clock) : ∃ clock',
    (tryFrom request).run clock = .ok (request.command clock.head, clock') ∧
      (clock' = clock ∨ clock' = clock.tail) := by
  unfold tryFrom Request.command intoArgs
  cases request.cstrs with
  | nil => exact ⟨clock, rfl, .inl rfl⟩
  | cons nameBytes args =>
    simp only [List.isEmpty_cons, List.length_cons, List.drop_succ_cons, List.drop_zero,
      List.getElem?_cons_zero, Bool.false_eq_true, if_false, expect_some_bind]
    cases hu : fromUtf8 nameBytes with
    | error e => exact ⟨clock, rfl, .inl rfl⟩
    | ok name =>
      simp only [commandNamed]
      by_cases hget : name = getName
      · rw [if_pos hget, if_pos hget]
        exact ⟨clock, liftM_run (parseOneKey_eq .get args) clock, .inl rfl⟩
      rw [if_neg hget, if_neg hget]
      by_cases hset : name = setName
      · rw [if_pos hset, if_pos hset]
        exact ⟨clock, liftM_run (parseSet_eq args) clock, .inl rfl⟩
      rw [if_neg hset, if_neg hset]
      by_cases hmget : name = mgetName
      · rw [if_pos hmget, if_pos hmget]
        exact ⟨clock, liftM_run (parseMget_eq args) clock, .inl rfl⟩
      rw [if_neg hmget, if_neg hmget]
      by_cases hmset : name = msetName
      · rw [if_pos hmset, if_pos hmset]
        exact ⟨clock, liftM_run (parseMset_eq args) clock, .inl rfl⟩
      rw [if_neg hmset, if_neg hmset]
      by_cases hdel : name = delName
      · rw [if_pos hdel, if_pos hdel]
        exact ⟨clock, liftM_run (parseDel_eq args) clock, .inl rfl⟩
      rw [if_neg hdel, if_neg hdel]
      by_cases hgetall : name = getallName
      · rw [if_pos hgetall, if_pos hgetall]
        exact ⟨clock, liftM_run (parseGetall_eq args) clock, .inl rfl⟩
      rw [if_neg hgetall, if_neg hgetall]
      by_cases hexpire : name = expireName
      · rw [if_pos hexpire, if_pos hexpire]
        exact parseExpire_run args clock
      rw [if_neg hexpire, if_neg hexpire]
      by_cases hexpireat : name = expireatName
      · rw [if_pos hexpireat, if_pos hexpireat]
        exact ⟨clock, liftM_run (parseExpireAt_eq args) clock, .inl rfl⟩
      rw [if_neg hexpireat, if_neg hexpireat]
      by_cases httl : name = ttlName
      · rw [if_pos httl, if_pos httl]
        exact ⟨clock, liftM_run (parseOneKey_eq .ttl args) clock, .inl rfl⟩
      · rw [if_neg httl, if_neg httl]
        exact ⟨clock, rfl, .inl rfl⟩

/-- While the clock stands still. -/
theorem tryFrom_const (request : Request) (now : UInt64) :
    (tryFrom request).run (Stream'.const now) =
      .ok (request.command now, Stream'.const now) := by
  obtain ⟨clock', hrun, hclock⟩ := tryFrom_run request (Stream'.const now)
  have hconst : clock' = Stream'.const now := by
    rcases hclock with rfl | rfl
    · rfl
    · exact Stream'.tail_const now
  rw [hrun, hconst]
  rfl

end Command

/-! What is spelled. -/

namespace Request

theorem map_eq_ok {α β : Type} {f : α → β} {x : Except CommandError α} {b : β} :
    f <$> x = .ok b ↔ ∃ a, x = .ok a ∧ f a = b := by
  cases x with
  | error e => exact iff_of_false (fun h => by cases h) (fun ⟨_, h, _⟩ => by cases h)
  | ok a =>
    refine ⟨fun h => ⟨a, rfl, Except.ok.inj h⟩, ?_⟩
    intro hpost
    obtain ⟨_, h, rfl⟩ := hpost
    cases h
    rfl

theorem oneArg_eq_ok {arg : Bytes} : ∀ {args : List Bytes}, oneArg args = .ok arg → args = [arg]
  | [_], h => by cases h; rfl
  | [], h => by cases h
  | _ :: _ :: _, h => by cases h

theorem twoArgs_eq_ok {first second : Bytes} :
    ∀ {args : List Bytes}, twoArgs args = .ok (first, second) → args = [first, second]
  | [_, _], h => by cases h; rfl
  | [], h => by cases h
  | [_], h => by cases h
  | _ :: _ :: _ :: _, h => by cases h

theorem someArgs_eq_ok {l : List Bytes} :
    ∀ {args : List Bytes}, someArgs args = .ok l → args = l ∧ l ≠ []
  | [], h => by cases h
  | _ :: _, h => by cases h; exact ⟨rfl, List.cons_ne_nil _ _⟩

theorem noArgs_eq_ok : ∀ {args : List Bytes}, noArgs args = .ok () → args = []
  | [], _ => rfl
  | _ :: _, h => by cases h

theorem flatMap_pairs : ∀ args : List Bytes, args.length % 2 = 0 →
    (pairs args).flatMap (fun (key, value) => [key, value]) = args
  | [], _ => rfl
  | [_], h => by cases h
  | key :: value :: rest, h => by
    have hrest : rest.length % 2 = 0 := by
      rw [List.length_cons, List.length_cons] at h
      omega
    rw [pairs, List.flatMap_cons, flatMap_pairs rest hrest]
    rfl

theorem pairs_flatMap : ∀ entries : List (Bytes × Bytes),
    pairs (entries.flatMap (fun (key, value) => [key, value])) = entries
  | [] => rfl
  | (key, value) :: entries => by
    have ih := pairs_flatMap entries
    rw [List.flatMap_cons]
    exact congrArg (List.cons (key, value)) ih

theorem length_flatMap_pairs : ∀ entries : List (Bytes × Bytes),
    (entries.flatMap (fun (key, value) => [key, value])).length = 2 * entries.length
  | [] => rfl
  | (key, value) :: entries => by
    have ih := length_flatMap_pairs entries
    rw [List.flatMap_cons, List.length_append, ih]
    show 2 + 2 * entries.length = 2 * (entries.length + 1)
    omega

theorem pairArgs_eq_ok {args : List Bytes} {entries : List (Bytes × Bytes)}
    (h : pairArgs args = .ok entries) :
    args = entries.flatMap (fun (key, value) => [key, value]) ∧ entries ≠ [] := by
  unfold pairArgs at h
  split at h
  · cases h
  · next hlen =>
    split at h
    · cases h
    · next heven =>
      cases h
      have hargs := flatMap_pairs args (by omega)
      refine ⟨hargs.symm, fun hnil => hlen ?_⟩
      rw [hnil] at hargs
      rw [← hargs]
      exact Nat.zero_lt_two

theorem pairArgs_flatMap {entries : List (Bytes × Bytes)} (h : entries ≠ []) :
    pairArgs (entries.flatMap (fun (key, value) => [key, value])) = .ok entries := by
  have hpos := List.length_pos_iff.mpr h
  unfold pairArgs
  rw [if_neg (by rw [length_flatMap_pairs]; omega), if_neg (by rw [length_flatMap_pairs]; omega),
    pairs_flatMap]

theorem expiration_eq_ok {args : List Bytes} {key : Bytes} {n : Nat}
    (h : expiration args = .ok (key, n)) :
    ∃ text, args = [key, asBytes text] ∧ parseUsize text = .ok n := by
  unfold expiration at h
  split at h
  · cases h
  · next key' text hargs =>
    obtain ⟨n', hn, he⟩ := map_eq_ok.mp h
    cases he
    unfold seconds at hn
    split at hn
    · cases hn
    · next s hs =>
      split at hn
      · cases hn
      · next m hm =>
        cases hn
        refine ⟨s, ?_, hm⟩
        rw [← fromUtf8_eq_ok.mp hs]
        exact twoArgs_eq_ok hargs

/-- What each name makes of its arguments. -/
inductive Spelled (now : UInt64) (args : List Bytes) : String → Except CommandError Command → Prop
    where
  | get : Spelled now args getName (.get <$> oneArg args)
  | set : Spelled now args setName ((fun (key, value) => .set key value) <$> twoArgs args)
  | mget : Spelled now args mgetName (.mget <$> someArgs args)
  | mset : Spelled now args msetName (.mset <$> pairArgs args)
  | del : Spelled now args delName (.del <$> someArgs args)
  | getall : Spelled now args getallName ((fun _ => .getAll) <$> noArgs args)
  | expire : Spelled now args expireName ((fun (key, n) =>
      .expireAt key (Command.saturatingAdd now (UInt64.ofNat n))) <$> expiration args)
  | expireat : Spelled now args expireatName ((fun (key, n) =>
      .expireAt key (UInt64.ofNat n)) <$> expiration args)
  | ttl : Spelled now args ttlName (.ttl <$> oneArg args)
  | unrecognized (name : String) : Spelled now args name (.error (.unrecognizedCommand name))

theorem spelled_commandNamed (now : UInt64) (name : String) (args : List Bytes) :
    Spelled now args name (commandNamed now name args) := by
  unfold commandNamed
  by_cases hget : name = getName
  · rw [if_pos hget, hget]
    exact .get
  rw [if_neg hget]
  by_cases hset : name = setName
  · rw [if_pos hset, hset]
    exact .set
  rw [if_neg hset]
  by_cases hmget : name = mgetName
  · rw [if_pos hmget, hmget]
    exact .mget
  rw [if_neg hmget]
  by_cases hmset : name = msetName
  · rw [if_pos hmset, hmset]
    exact .mset
  rw [if_neg hmset]
  by_cases hdel : name = delName
  · rw [if_pos hdel, hdel]
    exact .del
  rw [if_neg hdel]
  by_cases hgetall : name = getallName
  · rw [if_pos hgetall, hgetall]
    exact .getall
  rw [if_neg hgetall]
  by_cases hexpire : name = expireName
  · rw [if_pos hexpire, hexpire]
    exact .expire
  rw [if_neg hexpire]
  by_cases hexpireat : name = expireatName
  · rw [if_pos hexpireat, hexpireat]
    exact .expireat
  rw [if_neg hexpireat]
  by_cases httl : name = ttlName
  · rw [if_pos httl, httl]
    exact .ttl
  rw [if_neg httl]
  exact .unrecognized name

/-- A spelled command has the elements of its request, except that `EXPIREAT` may
    spell its deadline otherwise and that `EXPIRE` adds the clock to it. -/
theorem command_ok {now : UInt64} {self : Request} {c : Command} (h : self.command now = .ok c) :
    c.Nonempty ∧ (c.parts = self.cstrs ∨ ∃ key text n, parseUsize text = .ok n ∧
      ((self.cstrs = [asBytes expireatName, key, asBytes text] ∧
          c = .expireAt key (UInt64.ofNat n)) ∨
        (self.cstrs = [asBytes expireName, key, asBytes text] ∧
          c = .expireAt key (Command.saturatingAdd now (UInt64.ofNat n))))) := by
  unfold command at h
  split at h
  · cases h
  next nameBytes args hcstrs =>
  split at h
  · cases h
  next name hname =>
  rw [hcstrs, fromUtf8_eq_ok.mp hname]
  have hspelled := spelled_commandNamed now name args
  generalize commandNamed now name args = result at h hspelled
  cases hspelled with
  | get =>
    obtain ⟨key, hargs, rfl⟩ := map_eq_ok.mp h
    exact ⟨trivial, .inl (by rw [oneArg_eq_ok hargs]; rfl)⟩
  | set =>
    obtain ⟨⟨key, value⟩, hargs, rfl⟩ := map_eq_ok.mp h
    exact ⟨trivial, .inl (by rw [twoArgs_eq_ok hargs]; rfl)⟩
  | mget =>
    obtain ⟨keys, hargs, rfl⟩ := map_eq_ok.mp h
    obtain ⟨hkeys, hne⟩ := someArgs_eq_ok hargs
    exact ⟨hne, .inl (by rw [hkeys]; rfl)⟩
  | mset =>
    obtain ⟨entries, hargs, rfl⟩ := map_eq_ok.mp h
    obtain ⟨hentries, hne⟩ := pairArgs_eq_ok hargs
    exact ⟨hne, .inl (by rw [hentries]; rfl)⟩
  | del =>
    obtain ⟨keys, hargs, rfl⟩ := map_eq_ok.mp h
    obtain ⟨hkeys, hne⟩ := someArgs_eq_ok hargs
    exact ⟨hne, .inl (by rw [hkeys]; rfl)⟩
  | getall =>
    obtain ⟨_, hargs, rfl⟩ := map_eq_ok.mp h
    exact ⟨trivial, .inl (by rw [noArgs_eq_ok hargs]; rfl)⟩
  | expire =>
    obtain ⟨⟨key, n⟩, hargs, rfl⟩ := map_eq_ok.mp h
    obtain ⟨text, htext, hp⟩ := expiration_eq_ok hargs
    exact ⟨trivial, .inr ⟨key, text, n, hp, .inr ⟨by rw [htext], rfl⟩⟩⟩
  | expireat =>
    obtain ⟨⟨key, n⟩, hargs, rfl⟩ := map_eq_ok.mp h
    obtain ⟨text, htext, hp⟩ := expiration_eq_ok hargs
    exact ⟨trivial, .inr ⟨key, text, n, hp, .inl ⟨by rw [htext], rfl⟩⟩⟩
  | ttl =>
    obtain ⟨key, hargs, rfl⟩ := map_eq_ok.mp h
    exact ⟨trivial, .inl (by rw [oneArg_eq_ok hargs]; rfl)⟩
  | unrecognized => cases h

/-- Only `EXPIRE` looks at the clock. -/
theorem commandNamed_congr {name : String} (h : name ≠ expireName) (now now' : UInt64)
    (args : List Bytes) : commandNamed now name args = commandNamed now' name args := by
  unfold commandNamed
  rw [if_neg h, if_neg h]

/-- Whether the request is accepted, and whether it writes, does not depend on the clock. -/
theorem isWriteOp_command (now now' : UInt64) (self : Request) :
    (self.command now).map Command.isWriteOp = (self.command now').map Command.isWriteOp := by
  unfold command
  split
  · rfl
  next nameBytes args _ =>
  split
  · rfl
  next name _ =>
  by_cases hexpire : name = expireName
  · -- whether the expiration is a number does not depend on the clock
    subst hexpire
    show Except.map _ (_ <$> expiration args) = Except.map _ (_ <$> expiration args)
    cases expiration args with
    | error e => rfl
    | ok e => rfl
  · rw [commandNamed_congr hexpire now now' args]

theorem someArgs_of_ne_nil : ∀ {args : List Bytes}, args ≠ [] → someArgs args = .ok args
  | [], h => absurd rfl h
  | _ :: _, _ => rfl

theorem seconds_toString (timestamp : UInt64) :
    seconds (asBytes (ToString.toString timestamp.toNat)) = .ok timestamp.toNat := by
  have hle : timestamp.toNat ≤ usizeMax := Nat.le_pred_of_lt timestamp.toNat_lt
  unfold seconds
  simp only [fromUtf8_asBytes, parseUsize_toString hle]

/-- The elements of a command spell it, whatever the clock shows. -/
theorem command_parts (now : UInt64) {c : Command} (h : c.Nonempty) :
    (Request.mk c.parts).command now = .ok c := by
  have named : ∀ (name : String) (args : List Bytes),
      (Request.mk (asBytes name :: args)).command now = commandNamed now name args := by
    intro name args
    unfold command
    simp only [fromUtf8_asBytes]
  cases c with
  | get key => exact named getName [key]
  | set key value => exact named setName [key, value]
  | mget keys =>
    calc (Request.mk (asBytes mgetName :: keys)).command now
        = .mget <$> someArgs keys := named mgetName keys
      _ = .ok (.mget keys) := by rw [someArgs_of_ne_nil h]; rfl
  | mset entries =>
    calc (Request.mk (Command.mset entries).parts).command now
        = .mset <$> pairArgs (entries.flatMap (fun (key, value) => [key, value])) :=
          named msetName _
      _ = .ok (.mset entries) := by rw [pairArgs_flatMap h]; rfl
  | del keys =>
    calc (Request.mk (asBytes delName :: keys)).command now
        = .del <$> someArgs keys := named delName keys
      _ = .ok (.del keys) := by rw [someArgs_of_ne_nil h]; rfl
  | getAll => exact named getallName []
  | ttl key => exact named ttlName [key]
  | expireAt key timestamp =>
    calc (Request.mk (Command.expireAt key timestamp).parts).command now
        = (fun e : Bytes × Nat => Command.expireAt e.1 (UInt64.ofNat e.2)) <$>
          (fun n => (key, n)) <$> seconds (asBytes (ToString.toString timestamp.toNat)) :=
          named expireatName _
      _ = .ok (.expireAt key (UInt64.ofNat timestamp.toNat)) := by rw [seconds_toString]; rfl
      _ = .ok (.expireAt key timestamp) := by rw [UInt64.ofNat_toNat]

end Request
end SimpleKv
