/-
Liveness/Text/Utf8.lean

Strict reading of UTF-8.  The reader goes through the bytes once and holds at
most one unfinished character.  A lead byte fixes how many continuation bytes
follow and the range of the first of them, so overlong forms, surrogates and
code points above U+10FFFF are refused at the byte that rules them out.

A fault says which bytes it covers: the lead byte with the continuation bytes
that were still good.
-/
import Liveness.Text.Quoted

namespace Liveness.Text.Utf8

/-- What is wrong with a byte sequence. -/
inductive Reason where
  | startByte
  | continuationByte
  | endOfData
  deriving DecidableEq, Repr

/-- The wording of a reason. -/
def Reason.message : Reason → String
  | .startByte => "invalid start byte"
  | .continuationByte => "invalid continuation byte"
  | .endOfData => "unexpected end of data"

/-- The first bytes that cannot be read: where they start, how many they are, the first of them. -/
structure Fault where
  position : Nat
  count : Nat
  lead : UInt8
  reason : Reason
  deriving DecidableEq, Repr

/-- The wording of a fault. -/
def Fault.message (f : Fault) : String :=
  let place :=
    if f.count == 1 then
      s!"byte 0x{String.ofList (hexDigits 2 f.lead.toNat)} in position {f.position}"
    else s!"bytes in position {f.position}-{f.position + f.count - 1}"
  s!"'utf-8' codec can't decode {place}: {f.reason.message}"

/-- A character whose bytes are not all read: its start and lead byte, the continuation bytes
seen and owed, the range of the next one and the bits so far. -/
structure Pending where
  start : Nat
  lead : UInt8
  seen : Nat
  owed : Nat
  low : UInt8
  high : UInt8
  bits : Nat
  deriving DecidableEq, Repr

/-- What a lead byte above ASCII opens. -/
def Pending.ofLead? (position : Nat) (b : UInt8) : Option Pending :=
  let opened (owed : Nat) (low high : UInt8) (bits : Nat) : Option Pending :=
    some { start := position, lead := b, seen := 0, owed, low, high, bits }
  if b < 0xC2 then none
  else if b < 0xE0 then opened 1 0x80 0xBF (b.toNat - 0xC0)
  else if b == 0xE0 then opened 2 0xA0 0xBF 0
  else if b == 0xED then opened 2 0x80 0x9F 0x0D
  else if b < 0xF0 then opened 2 0x80 0xBF (b.toNat - 0xE0)
  else if b == 0xF0 then opened 3 0x90 0xBF 0
  else if b < 0xF4 then opened 3 0x80 0xBF (b.toNat - 0xF0)
  else if b == 0xF4 then opened 3 0x80 0x8F 4
  else none

/-- The fault of an unfinished character that cannot go on. -/
def Pending.fault (p : Pending) (reason : Reason) : Fault :=
  { position := p.start, count := 1 + p.seen, lead := p.lead, reason }

/-- Read on from a position; `done` holds the characters before it, last first. -/
def decodeFrom (position : Nat) (pending : Option Pending) (done : List Char) :
    List UInt8 → Except Fault (List Char)
  | [] =>
    match pending with
    | none => .ok done.reverse
    | some p => .error (p.fault .endOfData)
  | b :: rest =>
    match pending with
    | none =>
      if b < 0x80 then decodeFrom (position + 1) none (Char.ofNat b.toNat :: done) rest
      else
        match Pending.ofLead? position b with
        | none => .error { position, count := 1, lead := b, reason := .startByte }
        | some p => decodeFrom (position + 1) (some p) done rest
    | some p =>
      if p.low ≤ b && b ≤ p.high then
        let bits := p.bits * 64 + (b.toNat - 0x80)
        if p.owed ≤ 1 then decodeFrom (position + 1) none (Char.ofNat bits :: done) rest
        else
          let next : Pending :=
            { p with seen := p.seen + 1, owed := p.owed - 1, low := 0x80, high := 0xBF, bits }
          decodeFrom (position + 1) (some next) done rest
      else .error (p.fault .continuationByte)

/-- The characters that a byte sequence writes. -/
def decode (bytes : List UInt8) : Except Fault (List Char) :=
  decodeFrom 0 none [] bytes

end Liveness.Text.Utf8
