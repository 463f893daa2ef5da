import Mathlib.Algebra.Group.Int.Defs
import Mathlib.Algebra.Group.Nat.Defs
import Mathlib.Data.Stream.Init
import Mathlib.Tactic.Common
import SimpleKv.Lib.Outcome

/- What the server uses of the Rust language and its standard library, on a
   64-bit target. A function that can panic returns in `Rust`, and `Fault` says
   how it stopped: a bounds check, a failed `expect`, an `unreachable!`, an overflow
   where it is checked, an allocation above `isize::MAX` bytes. `spin` is not Rust's: the `loop`s of the
   source are modelled with a number of iterations, and a loop that has used them
   up without leaving is at `spin`. Strings are Lean's (both are the valid UTF-8
   byte strings); integer parsing and UTF-8 validation follow the library's
   documented results, the error values included. -/
namespace SimpleKv
open Outcome

def usizeMax : Nat := 2^64 - 1
def isizeMax : Nat := 2^63 - 1

/-- How a Rust function ends without returning. An allocation fault carries the
    number of bytes asked for, which no machine can hold. -/
inductive Fault where
  | indexOutOfBounds
  | sliceOutOfRange
  | expectFailed (msg : String)
  | unreachable (msg : String)
  /-- Only in builds with overflow checks; the others wrap. -/
  | arithmeticOverflow
  | capacityOverflow (bytes : Nat) (above : isizeMax < bytes)
  | spin
  deriving DecidableEq

abbrev Rust := Except Fault

@[simp] theorem ok_bind {α β : Type} (a : α) (f : α → Rust β) :
    ((Except.ok a : Rust α) >>= f) = f a := rfl

/-- The one fault that is not a defect of the code that meets it. -/
def Fault.OutOfMemory : Fault → Prop
  | .capacityOverflow _ _ => True
  | _ => False

/-- `x` returns a value with `post`; it never panics, except for asking for more
    memory than can be addressed. -/
abbrev Completes {α : Type} (x : Rust α) (post : α → Prop) : Prop :=
  Yields Fault.OutOfMemory x post

/-- Reserve room for `count` elements of `size` bytes. -/
def reserve (count size : Nat) : Rust Unit :=
  if h : isizeMax < count * size then .error (.capacityOverflow (count * size) h) else .ok ()

/-- `a + b` on `usize`, in a release build. -/
def wrappingAdd (a b : Nat) : Rust Nat := .ok ((a + b) % 2^64)

/-- `a + b` on `usize`, in a build with overflow checks. -/
def usizeAdd (a b : Nat) : Rust Nat :=
  if a + b ≤ usizeMax then .ok (a + b) else .error .arithmeticOverflow

/-- `n as usize`, checked to keep its value. -/
def usizeFrom (n : Int64) : Rust Nat :=
  if n < 0 then .error .arithmeticOverflow else .ok n.toUInt64.toNat

/-- How a build computes offsets: `a + b` on `usize`, and `n as usize`. -/
structure Arithmetic where
  add : Nat → Nat → Rust Nat
  usizeFrom : Int64 → Rust Nat

namespace Arithmetic

/-- For offsets that stay in `usize`. -/
def unchecked : Arithmetic where
  add a b := .ok (a + b)
  usizeFrom n := .ok n.toUInt64.toNat

def checked : Arithmetic := ⟨usizeAdd, SimpleKv.usizeFrom⟩

@[simp] theorem unchecked_add (a b : Nat) : unchecked.add a b = .ok (a + b) := rfl

@[simp] theorem unchecked_usizeFrom (n : Int64) :
    unchecked.usizeFrom n = .ok n.toUInt64.toNat := rfl

@[simp] theorem checked_add (a b : Nat) : checked.add a b = usizeAdd a b := rfl

@[simp] theorem checked_usizeFrom (n : Int64) : checked.usizeFrom n = SimpleKv.usizeFrom n := rfl

end Arithmetic

/-- `xs[i]` -/
def index {α : Type} (xs : List α) (i : Nat) : Rust α :=
  match xs[i]? with
  | some a => .ok a
  | none => .error .indexOutOfBounds

/-- `&xs[a..b]` -/
def slice {α : Type} (xs : List α) (a b : Nat) : Rust (List α) :=
  if a ≤ b ∧ b ≤ xs.length then .ok ((xs.take b).drop a) else .error .sliceOutOfRange

/-- `&xs[a..]` -/
def sliceFrom {α : Type} (xs : List α) (a : Nat) : Rust (List α) := slice xs a xs.length

/-- `Option::expect` -/
def expect {α : Type} (msg : String) : Option α → Rust α
  | some a => .ok a
  | none => .error (.expectFailed msg)

theorem reserve_ok {count size : Nat} (h : count * size ≤ isizeMax) : reserve count size = .ok () :=
  dif_neg (Nat.not_lt.mpr h)

theorem usizeAdd_ok {a b : Nat} (h : a + b ≤ usizeMax) : usizeAdd a b = .ok (a + b) := if_pos h

theorem usizeAdd_overflow {a b : Nat} (h : usizeMax < a + b) :
    usizeAdd a b = .error .arithmeticOverflow := if_neg (Nat.not_le.mpr h)

theorem usizeFrom_ok {n : Int64} (h : ¬n < 0) : usizeFrom n = .ok n.toUInt64.toNat := if_neg h

theorem index_ok {α : Type} {xs : List α} {i : Nat} {a : α} (h : xs[i]? = some a) :
    index xs i = .ok a := by
  unfold index; rw [h]

theorem slice_ok {α : Type} {xs : List α} {a b : Nat} (hab : a ≤ b) (hb : b ≤ xs.length) :
    slice xs a b = .ok ((xs.take b).drop a) := if_pos ⟨hab, hb⟩

theorem sliceFrom_ok {α : Type} {xs : List α} {a : Nat} (h : a ≤ xs.length) :
    sliceFrom xs a = .ok (xs.drop a) := by
  unfold sliceFrom
  rw [slice_ok h (Nat.le_refl _), List.take_length]

/-- A slice of the second part of `q ++ r`. -/
theorem slice_append_right {α : Type} (q r : List α) (a b : Nat) :
    slice (q ++ r) (q.length + a) (q.length + b) = slice r a b := by
  have hiff : (q.length + a ≤ q.length + b ∧ q.length + b ≤ (q ++ r).length) ↔
      (a ≤ b ∧ b ≤ r.length) := by
    rw [List.length_append]
    omega
  unfold slice
  by_cases h : a ≤ b ∧ b ≤ r.length
  · rw [if_pos h, if_pos (hiff.mpr h), List.take_length_add_append, List.drop_length_add_append]
  · rw [if_neg h, if_neg (fun e => h (hiff.mp e))]

/-- The `n` elements after `q`, and the `k` after these. -/
theorem slice_take {α : Type} (q r : List α) {n : Nat} (h : n ≤ r.length) :
    slice (q ++ r) q.length (q.length + n) = .ok (r.take n) := by
  have hslice := slice_append_right q r 0 n
  rw [Nat.add_zero, slice_ok (Nat.zero_le _) h] at hslice
  exact hslice

theorem slice_drop_take {α : Type} (q r : List α) {n k : Nat} (h : n + k ≤ r.length) :
    slice (q ++ r) (q.length + n) (q.length + n + k) = .ok ((r.take (n + k)).drop n) := by
  rw [Nat.add_assoc, slice_append_right, slice_ok (Nat.le_add_right _ _) h]

/-! The clock. A program reads the system clock as often as it likes: the readings
    still to come are a stream, and reading takes the first. -/

abbrev Clock := Stream' UInt64

/-- Computations that read the clock. -/
abbrev Clocked := StateT Clock Rust

def readClock : Clocked UInt64 := fun clock => .ok (clock.head, clock.tail)

/-- While the clock shows `now`, `x` completes with `post`. -/
abbrev CompletesAt {α : Type} (now : UInt64) (x : Clocked α) (post : α → Prop) : Prop :=
  YieldsAt Fault.OutOfMemory (Stream'.const now) x post

/-- Whatever the clock shows and shows next, `x` completes with `post`. -/
abbrev CompletesAlways {α : Type} (x : Clocked α) (post : α → Prop) : Prop :=
  YieldsAlways Fault.OutOfMemory x post

theorem readClock_const {stop : Fault → Prop} (now : UInt64) :
    YieldsAt stop (Stream'.const now) readClock (· = now) := ⟨rfl, rfl⟩

/-- Run `x` while the clock shows `now`. -/
def runAt {α : Type} (now : UInt64) (x : Clocked α) : Rust α :=
  (fun r => r.1) <$> x.run (Stream'.const now)

theorem runAt_completes {α : Type} {stop : Fault → Prop} {now : UInt64} {x : Clocked α}
    {post : α → Prop} (h : YieldsAt stop (Stream'.const now) x post) :
    Yields stop (runAt now x) post :=
  Yields.map (Yields.mono h (fun _ hr => hr.2))

theorem runAt_always {α : Type} {stop : Fault → Prop} {now : UInt64} {x : Clocked α}
    {post : α → Prop} (h : YieldsAlways stop x post) : Yields stop (runAt now x) post :=
  Yields.map (h (Stream'.const now))

/-! Strings. -/

/-- `str::as_bytes` -/
def asBytes (s : String) : List UInt8 := s.toByteArray.data.toList

@[simp] theorem asBytes_append (s t : String) : asBytes (s ++ t) = asBytes s ++ asBytes t := by
  simp [asBytes]

/-- `std::str::Utf8Error`: where the valid prefix ends, and the length of the bad
    sequence after it (`none` when the input ends inside a sequence). -/
structure Utf8Error where
  validUpTo : Nat
  errorLen : Option Nat
  deriving DecidableEq, Repr

/-- A continuation byte. -/
def isContinuation (b : UInt8) : Bool := b &&& 0xC0 == 0x80

/-- Whether `c` may follow the lead byte `b` of a sequence of three bytes. -/
def secondOfThree (b c : UInt8) : Bool :=
  if b == 0xE0 then 0xA0 ≤ c && c ≤ 0xBF
  else if b == 0xED then 0x80 ≤ c && c ≤ 0x9F
  else isContinuation c

/-- Whether `c` may follow the lead byte `b` of a sequence of four bytes. -/
def secondOfFour (b c : UInt8) : Bool :=
  if b == 0xF0 then 0x90 ≤ c && c ≤ 0xBF
  else if b == 0xF4 then 0x80 ≤ c && c ≤ 0x8F
  else isContinuation c

/-- Where UTF-8 validation stops, the first of `bytes` being at offset `i`. -/
def utf8Error : List UInt8 → Nat → Utf8Error
  | [], i => ⟨i, none⟩
  | b :: rest, i =>
    if b < 0x80 then utf8Error rest (i+1)
    else if 0xC2 ≤ b ∧ b ≤ 0xDF then
      match rest with
      | [] => ⟨i, none⟩
      | c :: rest => if isContinuation c then utf8Error rest (i+2) else ⟨i, some 1⟩
    else if 0xE0 ≤ b ∧ b ≤ 0xEF then
      match rest with
      | [] => ⟨i, none⟩
      | [c] => if secondOfThree b c then ⟨i, none⟩ else ⟨i, some 1⟩
      | c :: d :: rest =>
        if !secondOfThree b c then ⟨i, some 1⟩
        else if !isContinuation d then ⟨i, some 2⟩
        else utf8Error rest (i+3)
    else if 0xF0 ≤ b ∧ b ≤ 0xF4 then
      match rest with
      | [] => ⟨i, none⟩
      | [c] => if secondOfFour b c then ⟨i, none⟩ else ⟨i, some 1⟩
      | [c, d] =>
        if !secondOfFour b c then ⟨i, some 1⟩
        else if !isContinuation d then ⟨i, some 2⟩ else ⟨i, none⟩
      | c :: d :: e :: rest =>
        if !secondOfFour b c then ⟨i, some 1⟩
        else if !isContinuation d then ⟨i, some 2⟩
        else if !isContinuation e then ⟨i, some 3⟩
        else utf8Error rest (i+4)
    else ⟨i, some 1⟩

/-- `str::from_utf8` -/
def fromUtf8 (bytes : List UInt8) : Except Utf8Error String :=
  match String.fromUTF8? ⟨bytes.toArray⟩ with
  | some s => .ok s
  | none => .error (utf8Error bytes 0)

theorem fromUTF8?_eq_some {bytes : List UInt8} {s : String} :
    String.fromUTF8? ⟨bytes.toArray⟩ = some s ↔ bytes = asBytes s := by
  unfold String.fromUTF8? asBytes
  constructor
  · intro h
    split at h
    · rw [← Option.some.inj h]
      rfl
    · cases h
  · intro heq
    subst heq
    have hb : (⟨s.toByteArray.data.toList.toArray⟩ : ByteArray) = s.toByteArray := by
      rw [Array.toArray_toList]
    simp only [hb, s.isValidUTF8, dite_true]
    rfl

/-- Validation accepts exactly the bytes of strings. -/
theorem fromUtf8_eq_ok {bytes : List UInt8} {s : String} :
    fromUtf8 bytes = .ok s ↔ bytes = asBytes s := by
  unfold fromUtf8
  rw [← fromUTF8?_eq_some]
  split
  · next t ht => rw [ht]; simp
  · next ht => rw [ht]; simp

@[simp] theorem fromUtf8_asBytes (s : String) : fromUtf8 (asBytes s) = .ok s :=
  fromUtf8_eq_ok.mpr rfl

/-- `String::from_utf8_lossy`: each bad sequence becomes one replacement character.
    Every call but the last drops a byte, so `fuel` bounds the length. -/
def fromUtf8Lossy : Nat → List UInt8 → String
  | 0, _ => ""
  | fuel+1, bytes =>
    match fromUtf8 bytes with
    | .ok s => s
    | .error e =>
      let valid := match fromUtf8 (bytes.take e.validUpTo) with
        | .ok s => s
        | .error _ => ""
      match e.errorLen with
      | none => valid ++ "\uFFFD"
      | some n => valid ++ "\uFFFD" ++ fromUtf8Lossy fuel (bytes.drop (e.validUpTo + n))

/-! Decimal integers. -/

/-- `std::num::IntErrorKind`, as far as parsing returns it. -/
inductive ParseIntError where
  | empty
  | invalidDigit
  | posOverflow
  | negOverflow
  deriving DecidableEq, Repr

/-- The value of an ASCII digit. -/
def digit? (b : UInt8) : Option Nat :=
  if 48 ≤ b ∧ b ≤ 57 then some (b.toNat - 48) else none

/-- The digit loop of integer parsing: the magnitude read so far is `acc`, and a
    magnitude above `limit` is the error `overflow`. -/
def parseDigits (limit : Nat) (overflow : ParseIntError) :
    List UInt8 → Nat → Except ParseIntError Nat
  | [], acc => .ok acc
  | b :: rest, acc =>
    match digit? b with
    | none => .error .invalidDigit
    | some d =>
      if limit < acc*10 + d then .error overflow
      else parseDigits limit overflow rest (acc*10 + d)

/-- `str::parse::<usize>` -/
def parseUsize (s : String) : Except ParseIntError Nat :=
  match asBytes s with
  | [] => .error .empty
  | [43] => .error .invalidDigit
  | [45] => .error .invalidDigit
  | 43 :: digits => parseDigits usizeMax .posOverflow digits 0
  | digits => parseDigits usizeMax .posOverflow digits 0

/-- `str::parse::<i64>` -/
def parseI64 (s : String) : Except ParseIntError Int64 :=
  match asBytes s with
  | [] => .error .empty
  | [43] => .error .invalidDigit
  | [45] => .error .invalidDigit
  | 43 :: digits => (parseDigits (2^63 - 1) .posOverflow digits 0).map (fun n => Int64.ofInt n)
  | 45 :: digits => (parseDigits (2^63) .negOverflow digits 0).map (fun n => Int64.ofInt (-n))
  | digits => (parseDigits (2^63 - 1) .posOverflow digits 0).map (fun n => Int64.ofInt n)

/-! Rendering: `to_string`, and parsing it back. -/

theorem asBytes_ofList (l : List Char) :
    asBytes (String.ofList l) = l.flatMap String.utf8EncodeChar := by
  unfold asBytes
  rw [String.toByteArray_ofList, List.utf8Encode, List.toList_data_toByteArray]

/-- A decimal digit is one byte, its ASCII code. -/
theorem utf8EncodeChar_digit {c : Char} (h : c.isDigit = true) :
    String.utf8EncodeChar c = [UInt8.ofNat c.toNat] ∧ 48 ≤ c.toNat ∧ c.toNat ≤ 57 := by
  have hc : 48 ≤ c.toNat ∧ c.toNat ≤ 57 := by
    simp only [Char.isDigit, Bool.and_eq_true, decide_eq_true_eq, ge_iff_le] at h
    exact ⟨UInt32.le_iff_toNat_le.mp h.1, UInt32.le_iff_toNat_le.mp h.2⟩
  refine ⟨?_, hc⟩
  have hv : c.val.toNat ≤ 127 := Nat.le_trans hc.2 (by decide)
  unfold String.utf8EncodeChar
  simp only [hv, if_true]
  rfl

theorem isDigit_toDigits {n : Nat} {c : Char} (h : c ∈ Nat.toDigits 10 n) : c.isDigit = true :=
  Nat.isDigit_of_mem_toDigits (by decide) (by decide) h

/-- The bytes of an unsigned integer in decimal. -/
def decimal (n : Nat) : List UInt8 := (Nat.toDigits 10 n).map (fun c => UInt8.ofNat c.toNat)

theorem asBytes_toString (n : Nat) : asBytes (toString n) = decimal n := by
  have chars : ∀ l : List Char, (∀ c ∈ l, c.isDigit = true) →
      l.flatMap String.utf8EncodeChar = l.map (fun c => UInt8.ofNat c.toNat) := by
    intro l hl
    induction l with
    | nil => rfl
    | cons c l ih =>
      rw [List.flatMap_cons, ih (fun c' h => hl c' (by simp [h])),
        (utf8EncodeChar_digit (hl c (by simp))).1]
      rfl
  rw [Nat.toString_eq_ofList_toDigits, asBytes_ofList]
  exact chars _ (fun c hc => isDigit_toDigits hc)

theorem mem_decimal {n : Nat} {b : UInt8} (h : b ∈ decimal n) : 48 ≤ b ∧ b ≤ 57 := by
  obtain ⟨c, hc, rfl⟩ := List.mem_map.mp h
  obtain ⟨_, h1, h2⟩ := utf8EncodeChar_digit (isDigit_toDigits hc)
  rw [UInt8.le_iff_toNat_le, UInt8.le_iff_toNat_le, UInt8.toNat_ofNat',
    Nat.mod_eq_of_lt (show c.toNat < 2^8 by omega)]
  exact ⟨h1, h2⟩

theorem decimal_ne_nil (n : Nat) : decimal n ≠ [] := by
  simp [decimal, Nat.toDigits_ne_nil]

theorem decimal_length_le {n k : Nat} (hk : 0 < k) (h : n < 10^k) : (decimal n).length ≤ k := by
  rw [decimal, List.length_map]
  exact (Nat.length_toDigits_le_iff (by decide) hk).mpr h

/-- A numeral starts with a digit, not with a sign. -/
theorem decimal_eq_cons (n : Nat) : ∃ b rest, decimal n = b :: rest ∧ b ≠ 43 ∧ b ≠ 45 := by
  cases hd : decimal n with
  | nil => exact absurd hd (decimal_ne_nil n)
  | cons b rest =>
    have hb := (mem_decimal (n := n) (b := b) (by rw [hd]; simp)).1
    exact ⟨b, rest, rfl, by rintro rfl; exact absurd hb (by decide),
      by rintro rfl; exact absurd hb (by decide)⟩

theorem digit?_digit {c : Char} (h : c.isDigit = true) :
    digit? (UInt8.ofNat c.toNat) = some (c.toNat - 48) := by
  obtain ⟨_, h1, h2⟩ := utf8EncodeChar_digit h
  have hm : (UInt8.ofNat c.toNat).toNat = c.toNat := by
    rw [UInt8.toNat_ofNat']; exact Nat.mod_eq_of_lt (by omega)
  unfold digit?
  rw [if_pos, hm]
  rw [UInt8.le_iff_toNat_le, UInt8.le_iff_toNat_le, hm]
  exact ⟨h1, h2⟩

theorem le_ofDigitChars : ∀ (l : List Char) (acc : Nat), acc ≤ Nat.ofDigitChars 10 l acc := by
  intro l
  induction l with
  | nil =>
    intro acc
    simp
  | cons c l ih =>
    intro acc
    rw [Nat.ofDigitChars_cons]
    exact Nat.le_trans (by omega) (ih _)

theorem parseDigits_digits (limit : Nat) (overflow : ParseIntError) :
    ∀ (l : List Char) (acc : Nat), (∀ c ∈ l, c.isDigit = true) →
      Nat.ofDigitChars 10 l acc ≤ limit →
      parseDigits limit overflow (l.map (fun c => UInt8.ofNat c.toNat)) acc =
        .ok (Nat.ofDigitChars 10 l acc) := by
  intro l
  induction l with
  | nil =>
    intro acc hl hle
    simp [parseDigits]
  | cons c l ih =>
    intro acc hl hle
    have hstep : Nat.ofDigitChars 10 (c :: l) acc =
        Nat.ofDigitChars 10 l (acc*10 + (c.toNat - 48)) := by
      rw [Nat.ofDigitChars_cons, Nat.mul_comm 10 acc]
      rfl
    rw [hstep] at hle ⊢
    have hacc := Nat.le_trans (le_ofDigitChars l _) hle
    rw [List.map_cons, parseDigits, digit?_digit (hl c (by simp))]
    simp only [Nat.not_lt.mpr hacc, if_false]
    exact ih _ (fun c' h => hl c' (by simp [h])) hle

theorem parseDigits_decimal {limit n : Nat} (overflow : ParseIntError) (h : n ≤ limit) :
    parseDigits limit overflow (decimal n) 0 = .ok n := by
  have hv : Nat.ofDigitChars 10 (Nat.toDigits 10 n) 0 = n :=
    Nat.ofDigitChars_toDigits (by decide) (by decide)
  unfold decimal
  rw [parseDigits_digits limit overflow _ 0 (fun c hc => isDigit_toDigits hc) (by rw [hv]; exact h),
    hv]

/-- What parses is made of digits, apart from a sign. -/
theorem mem_of_parseDigits {limit : Nat} {overflow : ParseIntError} :
    ∀ {bytes : List UInt8} {acc n : Nat}, parseDigits limit overflow bytes acc = .ok n →
      ∀ b ∈ bytes, 48 ≤ b ∧ b ≤ 57 := by
  intro rest
  induction rest with
  | nil =>
    intro acc n h
    simp
  | cons b rest ih =>
    intro acc n h
    rw [parseDigits] at h
    unfold digit? at h
    by_cases hb : 48 ≤ b ∧ b ≤ 57
    · simp only [hb, and_self, if_true] at h
      split at h
      · cases h
      · have hrest := ih h
        intro c hc
        rcases List.mem_cons.mp hc with rfl | hc
        · exact hb
        · exact hrest c hc
    · rw [if_neg hb] at h
      cases h

theorem mem_of_parseUsize {s : String} {n : Nat} (h : parseUsize s = .ok n) :
    ∀ b ∈ asBytes s, b = 43 ∨ 48 ≤ b ∧ b ≤ 57 := by
  unfold parseUsize at h
  split at h
  · cases h
  · cases h
  · cases h
  · next digits _ hs =>
    rw [hs]
    intro b hb
    rcases List.mem_cons.mp hb with rfl | hb
    · exact .inl rfl
    · exact .inr (mem_of_parseDigits h b hb)
  · intro b hb
    exact .inr (mem_of_parseDigits h b hb)

theorem parseUsize_toString {n : Nat} (h : n ≤ usizeMax) : parseUsize (toString n) = .ok n := by
  obtain ⟨b, rest, hd, hplus, hminus⟩ := decimal_eq_cons n
  have hp := parseDigits_decimal .posOverflow h
  unfold parseUsize
  rw [asBytes_toString]
  rw [hd] at hp ⊢
  split <;> simp_all

theorem parseI64_toString (x : Int64) : parseI64 (toString x.toInt) = .ok x := by
  have hlo : -2^63 ≤ x.toInt := Int64.minValue_le_toInt x
  have hhi : x.toInt < 2^63 := Int64.toInt_lt x
  have hx : Int64.ofInt x.toInt = x := Int64.ofInt_toInt x
  unfold parseI64
  cases hi : x.toInt with
  | ofNat m =>
    rw [hi] at hhi hx
    obtain ⟨b, rest, hd, hplus, hminus⟩ := decimal_eq_cons m
    have hm : m ≤ 2^63 - 1 := by
      have : (m : Int) < 2^63 := hhi
      omega
    have hp := parseDigits_decimal .posOverflow hm
    rw [show toString (Int.ofNat m) = toString m from rfl, asBytes_toString]
    rw [hd] at hp ⊢
    split <;> simp_all [Except.map]
  | negSucc m =>
    rw [hi] at hlo hx
    have hle : m + 1 ≤ 2^63 := by
      have : -2^63 ≤ Int.negSucc m := hlo
      omega
    have hp := parseDigits_decimal .negOverflow hle
    have hm : asBytes (toString (Int.negSucc m)) = 45 :: decimal (m + 1) := by
      rw [show toString (Int.negSucc m) = "-" ++ toString (m + 1) from rfl, asBytes_append,
        asBytes_toString]
      rfl
    have hne := decimal_ne_nil (m + 1)
    rw [hm]
    split
    · next h => simp at h
    · next h => simp at h
    · next h => simp [hne] at h
    · next h => simp at h
    · next h => simp at h; rw [← h, hp]; exact congrArg Except.ok hx
    · next _ h => simp at h

end SimpleKv
