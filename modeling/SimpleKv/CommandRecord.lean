import SimpleKv.CommandCodec
import SimpleKv.RequestSyntax

/- The record of a command against the request it was parsed from. A request has two
   encoders, its own and, once parsed, that of the command; they agree except on the
   deadline, which the log always has in canonical decimal, and which `EXPIRE` counts from
   the reading of the clock. -/
namespace SimpleKv
open Request

theorem toNat_saturatingAdd (a b : UInt64) :
    (Command.saturatingAdd a b).toNat = min (a.toNat + b.toNat) (2^64 - 1) := by
  unfold Command.saturatingAdd
  rw [UInt64.toNat_ofNat']
  exact Nat.mod_eq_of_lt (by omega)

theorem Numeral.toNat_ofNat {text : Bytes} {n : Nat} (h : Numeral text n) :
    (UInt64.ofNat n).toNat = n := by
  obtain ⟨_, _, _, _, _, hle⟩ := h
  unfold usizeMax at hle
  rw [UInt64.toNat_ofNat']
  exact Nat.mod_eq_of_lt (by omega)

/-- The request that asks for a deadline in canonical decimal. -/
def Request.expireAt (key : Bytes) (deadline : Nat) : Request :=
  ⟨[asBytes expireatName, key, asBytes (toString deadline)]⟩

namespace Command

theorem toBytes_of_parts {self : Command} {request : Request} (h : self.parts = request.cstrs) :
    self.toBytes = request.toBytes := by
  rw [toBytes_eq, toRequest, h]

theorem toBytes_expireAt (key : Bytes) (timestamp : UInt64) :
    (expireAt key timestamp).toBytes = (Request.expireAt key timestamp.toNat).toBytes :=
  toBytes_of_parts rfl

theorem head?_parts (self : Command) : self.parts.head? = some (asBytes self.name) := by
  cases self <;> rfl

/-- No command is called `EXPIRE` once it is parsed. -/
theorem name_ne_expire (self : Command) : asBytes self.name ≠ asBytes expireName := by
  cases self <;> simp only [name] <;> decide

theorem exists_of_name_expireat {self : Command} (h : asBytes self.name = asBytes expireatName) :
    ∃ key timestamp, self = .expireAt key timestamp := by
  cases self with
  | expireAt key timestamp => exact ⟨key, timestamp, rfl⟩
  | get | set | mget | mset | del | getAll | ttl =>
    simp only [name] at h
    exact absurd h (by decide)

/-- The record is the request byte for byte. Only the deadline may be written otherwise,
    and under `EXPIRE` it is the seconds counted from the reading, as far as a `u64` goes. -/
theorem toBytes_of_tryFrom {request : Request} {c : Command} {clock clock' : Clock}
    (h : (tryFrom request).run clock = .ok (.ok c, clock')) :
    (request.cstrs.head? ≠ some (asBytes expireName) →
      request.cstrs.head? ≠ some (asBytes expireatName) → c.toBytes = request.toBytes) ∧
    (request.cstrs.head? = some (asBytes expireatName) → ∃ key text n, Numeral text n ∧
      request.cstrs = [asBytes expireatName, key, text] ∧
      c.toBytes = (Request.expireAt key n).toBytes) ∧
    (request.cstrs.head? = some (asBytes expireName) → ∃ key text s, Numeral text s ∧
      request.cstrs = [asBytes expireName, key, text] ∧
      c.toBytes = (Request.expireAt key (min (clock.head.toNat + s) (2^64 - 1))).toBytes) := by
  obtain ⟨_, hrun, _⟩ := tryFrom_run request clock
  rw [hrun] at h
  have hc : request.command clock.head = .ok c := (Prod.mk.inj (Except.ok.inj h)).1
  obtain ⟨_, hparts | ⟨key, text, n, hn, ⟨hcstrs, rfl⟩ | ⟨hcstrs, rfl⟩⟩⟩ := command_ok hc
  · -- the elements of the command are those of the request
    rw [← hparts, head?_parts]
    refine ⟨fun _ _ => toBytes_of_parts hparts, fun hname => ?_, fun hname => ?_⟩
    · obtain ⟨key, timestamp, rfl⟩ := exists_of_name_expireat (Option.some.inj hname)
      have hle : timestamp.toNat ≤ usizeMax := Nat.le_pred_of_lt timestamp.toNat_lt
      exact ⟨key, _, timestamp.toNat, parseUsize_eq_ok.mp (parseUsize_toString hle), rfl,
        toBytes_expireAt key timestamp⟩
    · exact absurd (Option.some.inj hname) c.name_ne_expire
  · have hnumeral := parseUsize_eq_ok.mp hn
    rw [hcstrs, List.head?_cons]
    refine ⟨fun _ hne => absurd rfl hne, fun _ => ?_, fun hname => ?_⟩
    · refine ⟨key, asBytes text, n, hnumeral, rfl, ?_⟩
      rw [toBytes_expireAt, hnumeral.toNat_ofNat]
    · exact absurd (Option.some.inj hname) (by decide)
  · have hnumeral := parseUsize_eq_ok.mp hn
    rw [hcstrs, List.head?_cons]
    refine ⟨fun hne _ => absurd rfl hne, fun hname => ?_, fun _ => ?_⟩
    · exact absurd (Option.some.inj hname) (by decide)
    · refine ⟨key, asBytes text, n, hnumeral, rfl, ?_⟩
      rw [toBytes_expireAt, toNat_saturatingAdd, hnumeral.toNat_ofNat]

/-- A deadline with a sign, and one that is capped. -/
theorem toBytes_of_tryFrom_expire :
    (∃ key text s, Numeral text s ∧ [asBytes "EXPIRE", [97], asBytes "+05"] =
        [asBytes expireName, key, text] ∧ (expireAt [97] 12).toBytes =
        (Request.expireAt key (min ((7 : UInt64).toNat + s) (2^64 - 1))).toBytes) ∧
    (∃ key text s, Numeral text s ∧ [asBytes "EXPIRE", [97], asBytes "18446744073709551615"] =
        [asBytes expireName, key, text] ∧ (expireAt [97] 18446744073709551615).toBytes =
        (Request.expireAt key (min ((7 : UInt64).toNat + s) (2^64 - 1))).toBytes) :=
  ⟨(@toBytes_of_tryFrom ⟨[asBytes "EXPIRE", [97], asBytes "+05"]⟩ _ (Stream'.const 7) _ rfl).2.2 rfl,
    (@toBytes_of_tryFrom ⟨[asBytes "EXPIRE", [97], asBytes "18446744073709551615"]⟩ _
      (Stream'.const 7) _ rfl).2.2 rfl⟩

end Command
end SimpleKv
