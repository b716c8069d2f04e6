import Mathlib.Data.List.Basic
import Mathlib.Tactic.Common

namespace PostgresQueue.Library.Utf8

def encode (cs : List Char) : List UInt8 := cs.flatMap String.utf8EncodeChar

def continues (b : UInt8) : Bool := 0x80 ≤ b && b ≤ 0xBF

/-- How many bytes follow a first byte, and where the one right after it has to lie. -/
def follow (b : UInt8) : Option (ℕ × UInt8 × UInt8) :=
  if 0xC2 ≤ b ∧ b ≤ 0xDF then some (1, 0x80, 0xBF)
  else if b = 0xE0 then some (2, 0xA0, 0xBF)
  else if b = 0xED then some (2, 0x80, 0x9F)
  else if 0xE1 ≤ b ∧ b ≤ 0xEF then some (2, 0x80, 0xBF)
  else if b = 0xF0 then some (3, 0x90, 0xBF)
  else if b = 0xF4 then some (3, 0x80, 0x8F)
  else if 0xF1 ≤ b ∧ b ≤ 0xF3 then some (3, 0x80, 0xBF)
  else none

/-- How many of the bytes after `b` go with it into one replacement character, where the sequence
that `b` begins is not well formed. -/
def brokenOff (b : UInt8) (bs : List UInt8) : ℕ :=
  match follow b, bs with
  | some (n, low, high), c :: bs =>
    if low ≤ c ∧ c ≤ high then ((bs.take (n - 1)).takeWhile continues).length + 1 else 0
  | _, _ => 0

def decodeHead (bs : List UInt8) : Option Char := bs.toByteArray.utf8DecodeChar? 0

def decodeFrom : ℕ → List UInt8 → List Char
  | _, [] => []
  | skip + 1, _ :: bs => decodeFrom skip bs
  | 0, b :: bs =>
    match decodeHead (b :: bs) with
    | some c => c :: decodeFrom (c.utf8Size - 1) bs
    | none => '\uFFFD' :: decodeFrom (brokenOff b bs) bs

/-- `bytes.decode("utf-8", errors="replace")`. -/
def decodeReplace (bs : List UInt8) : String := String.ofList (decodeFrom 0 bs)

theorem decodeFrom_drop (n : ℕ) (bs : List UInt8) : decodeFrom n bs = decodeFrom 0 (bs.drop n) := by
  induction bs generalizing n with
  | nil => simp [decodeFrom]
  | cons b bs ih =>
    cases n with
    | zero => rfl
    | succ n => exact ih n

theorem decodeFrom_ne_nil {bs : List UInt8} (h : bs ≠ []) : decodeFrom 0 bs ≠ [] := by
  cases bs with
  | nil => exact absurd rfl h
  | cons b bs =>
    rw [decodeFrom]
    cases decodeHead (b :: bs) with
    | some c => exact List.cons_ne_nil _ _
    | none => exact List.cons_ne_nil _ _

theorem decodeReplace_ne_empty {bs : List UInt8} (h : bs ≠ []) : decodeReplace bs ≠ "" := by
  intro hempty
  apply decodeFrom_ne_nil h
  rw [← String.toList_ofList (l := decodeFrom 0 bs), ← decodeReplace, hempty]
  rfl

theorem decodeHead_encode (c : Char) (bs : List UInt8) :
    decodeHead (String.utf8EncodeChar c ++ bs) = some c := by
  unfold decodeHead
  rw [List.toByteArray_append]
  exact ByteArray.utf8DecodeChar?_utf8EncodeChar_append

theorem decodeFrom_encodeChar (c : Char) (bs : List UInt8) :
    decodeFrom 0 (String.utf8EncodeChar c ++ bs) = c :: decodeFrom 0 bs := by
  have hlength := String.length_utf8EncodeChar c
  have hpos := c.utf8Size_pos
  cases hbytes : String.utf8EncodeChar c with
  | nil =>
    rw [hbytes, List.length_nil] at hlength
    omega
  | cons b rest =>
    have hhead := decodeHead_encode c bs
    rw [hbytes] at hhead hlength
    rw [List.cons_append] at hhead ⊢
    rw [decodeFrom, hhead]
    dsimp only
    rw [decodeFrom_drop, ← hlength, List.length_cons, Nat.add_sub_cancel, List.drop_left]

theorem decodeFrom_encode (cs : List Char) : decodeFrom 0 (encode cs) = cs := by
  induction cs with
  | nil => rfl
  | cons c cs ih =>
    rw [encode, List.flatMap_cons, decodeFrom_encodeChar]
    rw [encode] at ih
    rw [ih]

theorem decodeReplace_encode (cs : List Char) : decodeReplace (encode cs) = String.ofList cs := by
  rw [decodeReplace, decodeFrom_encode]

example : decodeFrom 0 [0x61, 0xE2, 0x82, 0x62, 0xFF, 0xC3, 0xA9] =
    ['a', '\uFFFD', 'b', '\uFFFD', 'é'] := by decide +kernel

end PostgresQueue.Library.Utf8
