/- The text of the datagrams: how the client writes them and how the server reads them. -/

import Mathlib.Data.List.DropRight
import StreamDataPipeline.UdpStream.Server

/-!
The server trims a datagram, splits it at blanks and reads the numeric fields. This is its
reading of ASCII text, which is all that the client writes where the name of the session is ASCII.
-/

set_option autoImplicit false
set_option relaxedAutoImplicit false

namespace StreamDataPipeline.UdpStream.Datagram

open Foundations.ByteString Foundations.Decimal Lib.Base64 PythonBase64 Server

def space : UInt8 := 32
def underscore : UInt8 := 95

/-- `str.isspace` of an ASCII character. -/
def isPySpace (b : UInt8) : Bool := isSpace b || (28 ≤ b && b ≤ 31)

/-- `str.strip` of ASCII text. -/
def strip (s : Bytes) : Bytes := (s.dropWhile isPySpace).rdropWhile isPySpace

/-- `s.split(" ", maxsplit)` -/
def splitMax : Nat → Bytes → List Bytes
  | 0, s => [s]
  | maxsplit + 1, s => match strchr space s with
    | none => [s]
    | some (field, rest) => field :: splitMax maxsplit rest

/-- Single underscores may stand between the digits, of which there are at most 4300. -/
def readDigits (s : Bytes) : Option Nat :=
  let groups := s.splitOn underscore
  if (∀ group ∈ groups, group ≠ [] ∧ group.all isDigit) ∧ groups.flatten.length ≤ 4300 then
    some (digitsValue groups.flatten)
  else none

/-- `int(s)`; `none` is the exception. -/
def readInt (s : Bytes) : Option Int :=
  let signed := splitSign ((s.dropWhile isSpace).rdropWhile isSpace)
  (readDigits signed.2).map fun magnitude => if signed.1 then -(magnitude : Int) else magnitude

def readDataseq : List Bytes → Option Packet
  | [seq, tsMs, payloadB64] => do some (.dataseq (← readInt seq) (← readInt tsMs) payloadB64)
  | _ => none

def readSegment : List Bytes → Option Packet
  | [seq, tsMs, fragIndex, fragCount, payloadB64] => do
      some (.segment (← readInt seq) (← readInt tsMs) (← readInt fragIndex) (← readInt fragCount)
        payloadB64)
  | _ => none

/-- The turn of the loop up to the point where it acts on the datagram. -/
def readDatagram (data : Bytes) : Packet :=
  match splitMax 5 (strip data) with
  | [] => .ignored
  | cmd :: fields =>
      if cmd = ascii "SHUTDOWN" then .shutdown
      else if cmd = ascii "STRT" then
        match fields with
        | [session] => .strt session
        | _ => .ignored
      else if cmd = ascii "END" then .endSession
      else if cmd = ascii "DATASEQ" then (readDataseq fields).getD .ignored
      else if cmd = ascii "SEGMENT" then (readSegment fields).getD .ignored
      else .ignored

/-- The fields of a line, with blanks between them. -/
def spaced (cmd : Bytes) (fields : List Bytes) : Bytes :=
  cmd ++ fields.flatMap fun field => space :: field

def strtLine (session : Bytes) : Bytes := spaced (ascii "STRT") [session]

def dataseqLine (seq tsMs : Int) (payload : Bytes) : Bytes :=
  spaced (ascii "DATASEQ") [decimal seq, decimal tsMs, encodePadded payload]

def segmentLine (seq tsMs fragIndex fragCount : Int) (payload : Bytes) : Bytes :=
  spaced (ascii "SEGMENT")
    [decimal seq, decimal tsMs, decimal fragIndex, decimal fragCount, encodePadded payload]

/-- An ASCII text that the server does not trim or split. -/
def IsWord (s : Bytes) : Prop := s ≠ [] ∧ ∀ b ∈ s, b < 128 ∧ isPySpace b = false

instance : DecidablePred IsWord := fun _ => instDecidableAnd

theorem space_not_mem {s : Bytes} (word : IsWord s) : space ∉ s :=
  fun mem => absurd (word.2 space mem).2 (by decide)

theorem strip_of_ends {s : Bytes} (head : ∀ b ∈ s.head?, isPySpace b = false)
    (last : ∀ b ∈ s.getLast?, isPySpace b = false) : strip s = s := by
  have front : s.dropWhile isPySpace = s := by
    cases s with
    | nil => rfl
    | cons b rest => exact List.dropWhile_cons_of_neg (by simp [head b rfl])
  rw [strip, front, List.rdropWhile_eq_self_iff]
  intro nonempty
  simp [last _ (List.getLast?_eq_some_getLast nonempty)]

theorem spaced_ends {cmd : Bytes} (word : IsWord cmd) {fields : List Bytes}
    (words : ∀ field ∈ fields, IsWord field) :
    strip (spaced cmd fields) = spaced cmd fields := by
  apply strip_of_ends
  · intro b head
    obtain ⟨nonempty, visible⟩ := word
    obtain ⟨first, rest, rfl⟩ := List.exists_cons_of_ne_nil nonempty
    obtain rfl : first = b := by simpa [spaced] using head
    exact (visible _ List.mem_cons_self).2
  · intro b last
    rcases List.eq_nil_or_concat fields with rfl | ⟨front, field, rfl⟩
    · rw [spaced, List.flatMap_nil, List.append_nil] at last
      exact (word.2 b (List.mem_of_getLast? last)).2
    · obtain ⟨nonempty, visible⟩ := words field (by simp)
      have split : spaced cmd (front.concat field) =
          (cmd ++ (front.flatMap fun field => space :: field) ++ [space]) ++ field := by
        simp [spaced]
      rw [split, List.getLast?_append_of_ne_nil _ nonempty] at last
      exact (visible b (List.mem_of_getLast? last)).2

theorem splitMax_spaced {cmd : Bytes} (word : IsWord cmd) {fields : List Bytes}
    (words : ∀ field ∈ fields, IsWord field) {maxsplit : Nat} (few : fields.length ≤ maxsplit) :
    splitMax maxsplit (spaced cmd fields) = cmd :: fields := by
  have absent := space_not_mem word
  induction fields generalizing cmd maxsplit with
  | nil =>
      have plain : spaced cmd [] = cmd := by simp [spaced]
      rw [plain]
      cases maxsplit with
      | zero => rfl
      | succ maxsplit => rw [splitMax, strchr_eq_none.mpr absent]
  | cons field fields ih =>
      obtain ⟨first, rest⟩ := List.forall_mem_cons.mp words
      cases maxsplit with
      | zero => simp at few
      | succ maxsplit =>
          have split : spaced cmd (field :: fields) = cmd ++ space :: spaced field fields := by
            simp [spaced]
          rw [split, splitMax, strchr_append absent]
          simp only [ih first rest (by simpa using few) (space_not_mem first)]

private theorem digit_visible {b : UInt8} (digit : isDigit b = true ∨ b = 45) :
    (b < 128 ∧ isPySpace b = false) ∧ isSpace b = false ∧ b ≠ underscore := by
  rcases digit with digit | rfl
  · simp only [isDigit, Bool.and_eq_true, decide_eq_true_eq, UInt8.le_iff_toNat_le,
      UInt8.reduceToNat] at digit
    simp only [isPySpace, isSpace, underscore, Bool.or_eq_false_iff, Bool.and_eq_false_iff,
      beq_eq_false_iff_ne, decide_eq_false_iff_not, ne_eq, UInt8.le_iff_toNat_le,
      UInt8.lt_iff_toNat_lt, ← UInt8.toNat_inj, UInt8.reduceToNat]
    omega
  · decide

theorem decimal_word (v : Int) : IsWord (decimal v) :=
  ⟨decimal_ne_nil v, fun b mem => (digit_visible (decimal_chars v b mem)).1⟩

private theorem readDigits_decimalNat {n : Nat} (short : (decimalNat n).length ≤ 4300) :
    readDigits (decimalNat n) = some n := by
  have digits := decimalNat_digits n
  have absent : underscore ∉ decimalNat n := fun mem =>
    (digit_visible (.inl (digits _ mem))).2.2 rfl
  have whole : (decimalNat n).splitOn underscore = [decimalNat n] :=
    List.splitOn_eq_singleton absent
  have good : ∀ group ∈ [decimalNat n], group ≠ [] ∧ group.all isDigit = true := by
    simpa using ⟨decimalNat_ne_nil n, digits⟩
  rw [readDigits, whole]
  simp only [List.flatten_cons, List.flatten_nil, List.append_nil, if_pos (And.intro good short),
    digitsValue_decimalNat]

theorem readInt_decimal {v : Int} (short : (decimalNat v.natAbs).length ≤ 4300) :
    readInt (decimal v) = some v := by
  have plain : ((decimal v).dropWhile isSpace).rdropWhile isSpace = decimal v := by
    have visible : ∀ b ∈ decimal v, isSpace b = false := fun b mem =>
      (digit_visible (decimal_chars v b mem)).2.1
    obtain ⟨first, rest, split⟩ := List.exists_cons_of_ne_nil (decimal_ne_nil v)
    rw [split] at visible ⊢
    rw [List.dropWhile_cons_of_neg (by simp [visible first]), List.rdropWhile_eq_self_iff]
    intro nonempty
    simp [visible _ (List.getLast_mem nonempty)]
  rw [readInt, plain]
  cases v with
  | ofNat n =>
      have unsigned : splitSign (decimalNat n) = (false, decimalNat n) := by
        obtain ⟨first, rest, split⟩ := List.exists_cons_of_ne_nil (decimalNat_ne_nil n)
        have digit := decimalNat_digits n first (split ▸ List.mem_cons_self)
        rw [split]
        unfold splitSign
        split
        · rename_i equal
          obtain ⟨rfl, -⟩ := List.cons.inj equal
          exact absurd digit (by decide)
        · rename_i equal
          obtain ⟨rfl, -⟩ := List.cons.inj equal
          exact absurd digit (by decide)
        · rfl
      rw [decimal, unsigned]
      simp [readDigits_decimalNat (n := n) (by simpa using short)]
  | negSucc n =>
      have signed : splitSign (decimal (.negSucc n)) = (true, decimalNat (n + 1)) := rfl
      rw [signed]
      simp only [readDigits_decimalNat (n := n + 1) (by simpa using short), if_true]
      rfl

set_option maxRecDepth 4000 in
private theorem base64_visible : ∀ b ∈ b64Table, b < 128 ∧ isPySpace b = false := by decide

theorem encodePadded_word {payload : Bytes} (nonempty : payload ≠ []) :
    IsWord (encodePadded payload) := by
  constructor
  · have length := length_encodePadded payload
    have positive := List.length_pos_iff.mpr nonempty
    intro none
    rw [none, List.length_nil] at length
    omega
  · intro b mem
    rcases encodePadded_chars payload b mem with letter | rfl
    · exact base64_visible b letter
    · decide

/-- The numbers of a line are short enough to be read back. -/
def Short (v : Int) : Prop := (decimalNat v.natAbs).length ≤ 4300

instance : DecidablePred Short := fun _ => inferInstanceAs (Decidable (_ ≤ _))

theorem readDatagram_spaced {cmd : Bytes} (word : IsWord cmd) {fields : List Bytes}
    (words : ∀ field ∈ fields, IsWord field) (few : fields.length ≤ 5) :
    splitMax 5 (strip (spaced cmd fields)) = cmd :: fields := by
  rw [spaced_ends word words, splitMax_spaced word words few]

theorem readDatagram_strt {session : Bytes} (word : IsWord session) :
    readDatagram (strtLine session) = .strt session := by
  rw [readDatagram, strtLine, readDatagram_spaced (by decide) (by simpa using word) (by simp)]
  rfl

theorem readDatagram_dataseq {seq tsMs : Int} {payload : Bytes} (seqShort : Short seq)
    (tsShort : Short tsMs) (nonempty : payload ≠ []) :
    readDatagram (dataseqLine seq tsMs payload) = .dataseq seq tsMs (encodePadded payload) := by
  have words : ∀ field ∈ [decimal seq, decimal tsMs, encodePadded payload], IsWord field := by
    simp only [List.forall_mem_cons]
    exact ⟨decimal_word seq, decimal_word tsMs, encodePadded_word nonempty, by simp⟩
  rw [readDatagram, dataseqLine, readDatagram_spaced (by decide) words (by simp)]
  have read : readDataseq [decimal seq, decimal tsMs, encodePadded payload] =
      some (.dataseq seq tsMs (encodePadded payload)) := by
    simp [readDataseq, readInt_decimal seqShort, readInt_decimal tsShort]
  simp only [read]
  rfl

theorem readDatagram_segment {seq tsMs fragIndex fragCount : Int} {payload : Bytes}
    (short : Short seq ∧ Short tsMs ∧ Short fragIndex ∧ Short fragCount)
    (nonempty : payload ≠ []) :
    readDatagram (segmentLine seq tsMs fragIndex fragCount payload) =
      .segment seq tsMs fragIndex fragCount (encodePadded payload) := by
  have words : ∀ field ∈ [decimal seq, decimal tsMs, decimal fragIndex, decimal fragCount,
      encodePadded payload], IsWord field := by
    simp only [List.forall_mem_cons]
    exact ⟨decimal_word seq, decimal_word tsMs, decimal_word fragIndex, decimal_word fragCount,
      encodePadded_word nonempty, by simp⟩
  obtain ⟨seqShort, tsShort, indexShort, countShort⟩ := short
  rw [readDatagram, segmentLine, readDatagram_spaced (by decide) words (by simp)]
  have read : readSegment [decimal seq, decimal tsMs, decimal fragIndex, decimal fragCount,
      encodePadded payload] =
        some (.segment seq tsMs fragIndex fragCount (encodePadded payload)) := by
    simp [readSegment, readInt_decimal seqShort, readInt_decimal tsShort,
      readInt_decimal indexShort, readInt_decimal countShort]
  simp only [read]
  rfl

end StreamDataPipeline.UdpStream.Datagram
