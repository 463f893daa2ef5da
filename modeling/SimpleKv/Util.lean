import SimpleKv.Rust
import SimpleKv.Lib.Incremental

/- `util.rs`: the byte conventions of the protocol, the clock, and the search for
   a line. `parse_line` is the library's incremental `line`, up to returning how
   many bytes it used instead of what is left. -/
namespace SimpleKv
open Incremental

abbrev Bytes := List UInt8

def crlf : Bytes := [13, 10]
def cstringByte : UInt8 := 36
def maxComplexStringLength : Nat := 512 * 1024 * 1024

/-- Seconds since the epoch; the clock is after it. -/
def getUnixTimestamp : Clocked UInt64 := readClock

structure Parsed (α : Type) where
  data : α
  numBytesParsed : Nat

/-- `bytes.windows(2).position(|w| w == CRLF)` -/
def crlfPosition : Bytes → Option Nat
  | a :: b :: rest =>
    if [a, b] = crlf then some 0 else (crlfPosition (b :: rest)).map (· + 1)
  | _ => none

/-- The first CRLF-terminated line, without its CRLF, and the number of bytes
    consumed with it. -/
def parseLineWith (a : Arithmetic) (bytes : Bytes) : Rust (Option (Parsed Bytes)) :=
  match crlfPosition bytes with
  | none => return none
  | some crlfPos => do
    let data ← slice bytes 0 crlfPos
    let numBytesParsed ← a.add crlfPos 2
    return some ⟨data, numBytesParsed⟩

def parseLine : Bytes → Rust (Option (Parsed Bytes)) := parseLineWith .unchecked

theorem crlfPosition_eq : ∀ bytes : Bytes,
    crlfPosition bytes = (Parser.splitLine 13 10 bytes).map (fun l => l.1.length)
  | [] => rfl
  | [_] => rfl
  | a :: b :: rest => by
    rw [crlfPosition, Parser.splitLine, crlfPosition_eq (b :: rest)]
    have hc : [a, b] = crlf ↔ a = 13 ∧ b = 10 := by simp [crlf]
    by_cases h : a = 13 ∧ b = 10
    · rw [if_pos h, if_pos (hc.mpr h)]; rfl
    · rw [if_neg h, if_neg (fun e => h (hc.mp e)), Option.map_map, Option.map_map]
      rfl

/-- `parse_line` is total, and finds the library's line. -/
theorem parseLine_eq (bytes : Bytes) : parseLine bytes =
    .ok ((Parser.splitLine 13 10 bytes).map (fun l => ⟨l.1, l.1.length + 2⟩)) := by
  unfold parseLine parseLineWith
  rw [crlfPosition_eq]
  cases h : Parser.splitLine 13 10 bytes with
  | none => rfl
  | some l =>
    have hb := Parser.splitLine_eq (l := l.1) (r := l.2) h
    have hs : slice bytes 0 l.1.length = .ok l.1 := by
      rw [slice_ok (Nat.zero_le _) (by rw [hb, List.length_append]; omega), hb]
      simp
    simp only [Option.map_some, hs]
    rfl

end SimpleKv
