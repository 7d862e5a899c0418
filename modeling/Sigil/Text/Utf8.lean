import Sigil.Text.Hex

/-!
# Texts from bytes

A character is one to four bytes. The first one tells how many follow and between which bounds the
next must lie; bounds narrower than the usual ones keep out what has a shorter form, the surrogates,
and what lies above the last character. `Utf8.decode` reads bytes in one pass, with the character
that is not yet complete as its state, and the first place that fits no form is the error.
-/

namespace Sigil.Text.Utf8

inductive Reason where
  /-- No character starts with this byte. -/
  | badStart
  /-- The byte after these does not go on with them. -/
  | badContinuation
  | truncated
  deriving DecidableEq, Repr

/-- A place where bytes are no text: from `start` to before `stop`, starting with `lead`. -/
structure DecodeError where
  start : Nat
  stop : Nat
  lead : UInt8
  reason : Reason
  deriving DecidableEq, Repr

def Reason.message : Reason → String
  | .badStart => "invalid start byte"
  | .badContinuation => "invalid continuation byte"
  | .truncated => "unexpected end of data"

def DecodeError.message (e : DecodeError) : String :=
  let place :=
    if e.stop = e.start + 1 then
      "byte 0x" ++ String.ofList (hexDigits 2 e.lead.toNat) ++ " in position " ++ toString e.start
    else "bytes in position " ++ toString e.start ++ "-" ++ toString (e.stop - 1)
  "'utf-8' codec can't decode " ++ place ++ ": " ++ e.reason.message

/-- Least and greatest value of a byte. -/
abbrev Bounds := Nat × Nat

/-- The bounds of a byte that goes on with a character. -/
def usual : Bounds := (0x80, 0xBF)

/-- What a first byte says: its share of the character, and the bounds of the bytes that follow. -/
def form? (b : Nat) : Option (Nat × List Bounds) :=
  if b < 0x80 then some (b, [])
  else if b < 0xC2 then none
  else if b < 0xE0 then some (b - 0xC0, [usual])
  else if b < 0xF0 then
    some (b - 0xE0, [(if b = 0xE0 then 0xA0 else 0x80, if b = 0xED then 0x9F else 0xBF), usual])
  else if b < 0xF5 then
    some (b - 0xF0,
      [(if b = 0xF0 then 0x90 else 0x80, if b = 0xF4 then 0x8F else 0xBF), usual, usual])
  else none

/-- A character of which bytes are still due. -/
structure Pending where
  start : Nat
  lead : UInt8
  /-- The share of the bytes so far. -/
  value : Nat
  next : Bounds
  later : List Bounds

/-- The text of the bytes from one position on, after a text that is kept in reverse. -/
def decodeFrom (pos : Nat) (pending : Option Pending) (before : List Char) :
    List UInt8 → Except DecodeError (List Char)
  | [] => match pending with
    | none => .ok before.reverse
    | some p => .error ⟨p.start, pos, p.lead, .truncated⟩
  | b :: bs => match pending with
    | none => match form? b.toNat with
      | none => .error ⟨pos, pos + 1, b, .badStart⟩
      | some (value, []) => decodeFrom (pos + 1) none (Char.ofNat value :: before) bs
      | some (value, next :: later) =>
        decodeFrom (pos + 1) (some ⟨pos, b, value, next, later⟩) before bs
    | some p =>
      if p.next.1 ≤ b.toNat && b.toNat ≤ p.next.2 then
        let value := 0x40 * p.value + (b.toNat - 0x80)
        match p.later with
        | [] => decodeFrom (pos + 1) none (Char.ofNat value :: before) bs
        | next :: later => decodeFrom (pos + 1) (some { p with value, next, later }) before bs
      else .error ⟨p.start, pos, p.lead, .badContinuation⟩

def decode (bytes : List UInt8) : Except DecodeError (List Char) := decodeFrom 0 none [] bytes

end Sigil.Text.Utf8
