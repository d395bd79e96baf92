import Mathlib.Algebra.Group.Nat.Defs
import Mathlib.Data.List.Basic
import Mathlib.Tactic.Common

/-!
# The proto3 wire format

A message is a list of tagged fields, each a varint or a byte string, in ascending order of
their tags and without the fields that hold their default. Decoding what was encoded gives
the values back.
-/

namespace Protobuf

/-- A field's value: an unsigned integer of at most 64 bits, or a byte string. -/
inductive Value where
  | varint (n : ℕ)
  | bytes (content : List UInt8)
  deriving DecidableEq, Repr

/-- The value a missing field stands for. -/
def Value.isDefault : Value → Bool
  | .varint n => n = 0
  | .bytes content => content = []

/-- The value fits in the wire format. -/
def Value.Fits : Value → Prop
  | .varint n => n < 2 ^ 64
  | .bytes content => content.length < 2 ^ 64

/-- A base-128 varint of at most `size` bytes. -/
def varintBytes : ℕ → ℕ → List UInt8
  | 0, _ => []
  | size + 1, n =>
    if n < 128 then [UInt8.ofNat n] else UInt8.ofNat (n % 128 + 128) :: varintBytes size (n / 128)

/-- A varint of at most ten bytes, enough for 64 bits. -/
def encodeVarint (n : ℕ) : List UInt8 := varintBytes 10 n

/-- Read a varint of at most `size` bytes. -/
def readVarint : ℕ → List UInt8 → Option (ℕ × List UInt8)
  | 0, _ => none
  | _ + 1, [] => none
  | size + 1, byte :: rest =>
    if byte.toNat < 128 then some (byte.toNat, rest)
    else (readVarint size rest).map fun high => (byte.toNat - 128 + 128 * high.1, high.2)

/-- Read a varint of at most ten bytes. -/
def decodeVarint (bytes : List UInt8) : Option (ℕ × List UInt8) := readVarint 10 bytes

/-- One field: its key and its value. -/
def encodeField (field : ℕ × Value) : List UInt8 :=
  match field.2 with
  | .varint n => encodeVarint (8 * field.1) ++ encodeVarint n
  | .bytes content => encodeVarint (8 * field.1 + 2) ++ encodeVarint content.length ++ content

/-- The fields that are written. -/
def present (fields : List (ℕ × Value)) : List (ℕ × Value) :=
  fields.filter fun field => !field.2.isDefault

/-- A message. -/
def encodeMessage (fields : List (ℕ × Value)) : List UInt8 := (present fields).flatMap encodeField

/-- Read one field. -/
def decodeField (bytes : List UInt8) : Option ((ℕ × Value) × List UInt8) :=
  (decodeVarint bytes).bind fun key =>
    if key.1 % 8 = 0 then
      (decodeVarint key.2).map fun n => ((key.1 / 8, .varint n.1), n.2)
    else if key.1 % 8 = 2 then
      (decodeVarint key.2).bind fun size =>
        if size.1 ≤ size.2.length then
          some ((key.1 / 8, .bytes (size.2.take size.1)), size.2.drop size.1)
        else none
    else none

/-- Read at most `count` fields, to the end of the bytes. -/
def readFields : ℕ → List UInt8 → Option (List (ℕ × Value))
  | _, [] => some []
  | 0, _ :: _ => none
  | count + 1, byte :: rest =>
    (decodeField (byte :: rest)).bind fun field => (readFields count field.2).map (field.1 :: ·)

/-- Read a message; every field takes a byte at least. -/
def decodeMessage (bytes : List UInt8) : Option (List (ℕ × Value)) := readFields bytes.length bytes

/-- The integer of a tag, `0` when the field is missing. -/
def getVarint (fields : List (ℕ × Value)) (tag : ℕ) : Option ℕ :=
  match fields.lookup tag with
  | none => some 0
  | some (.varint n) => some n
  | some (.bytes _) => none

/-- The byte string of a tag, empty when the field is missing. -/
def getBytes (fields : List (ℕ × Value)) (tag : ℕ) : Option (List UInt8) :=
  match fields.lookup tag with
  | none => some []
  | some (.bytes content) => some content
  | some (.varint _) => none

/-- The bytes of a value besides the varints. -/
def Value.contentLength : Value → ℕ
  | .varint _ => 0
  | .bytes content => content.length

/-- A bound on the length of a message. -/
def messageSize : List (ℕ × Value) → ℕ
  | [] => 0
  | field :: rest => 20 + field.2.contentLength + messageSize rest

/-! ## Varints -/

/-- A byte below 256 keeps its value. -/
theorem toNat_ofNat {n : ℕ} (h : n < 256) : (UInt8.ofNat n).toNat = n := by
  simpa using h

/-- A varint is read back, with what follows it untouched. -/
theorem readVarint_varintBytes {size n : ℕ} (h : n < 128 ^ (size + 1)) (rest : List UInt8) :
    readVarint (size + 1) (varintBytes (size + 1) n ++ rest) = some (n, rest) := by
  induction size generalizing n with
  | zero =>
    have hsmall : n < 128 := by simpa using h
    simp only [varintBytes, if_pos hsmall, List.singleton_append, readVarint,
      toNat_ofNat (show n < 256 by omega)]
  | succ size ih =>
    rw [varintBytes]
    split
    · rename_i hsmall
      simp only [List.singleton_append, readVarint, toNat_ofNat (show n < 256 by omega),
        if_pos hsmall]
    · have hbyte : (UInt8.ofNat (n % 128 + 128)).toNat = n % 128 + 128 := toNat_ofNat (by omega)
      have hhigh := ih (n := n / 128) (by rw [pow_succ] at h; exact Nat.div_lt_of_lt_mul (by omega))
      rw [List.cons_append, readVarint, hbyte, if_neg (by omega), hhigh]
      simp only [Option.map_some, Option.some.injEq, Prod.mk.injEq, and_true]
      omega

/-- A 64-bit varint is read back. -/
theorem decodeVarint_encodeVarint {n : ℕ} (h : n < 2 ^ 64) (rest : List UInt8) :
    decodeVarint (encodeVarint n ++ rest) = some (n, rest) :=
  readVarint_varintBytes (Nat.lt_trans h (by decide)) rest

/-- A varint is not empty. -/
theorem varintBytes_length_pos (size n : ℕ) : 0 < (varintBytes (size + 1) n).length := by
  rw [varintBytes]
  split <;> simp

/-- A varint has at most its allowed bytes. -/
theorem varintBytes_length_le (size n : ℕ) : (varintBytes size n).length ≤ size := by
  induction size generalizing n with
  | zero => simp [varintBytes]
  | succ size ih =>
    rw [varintBytes]
    split
    · simp
    · exact Nat.succ_le_succ (ih _)

/-! ## Messages -/

/-- A field is read back, with what follows it untouched. -/
theorem decodeField_encodeField {field : ℕ × Value} (htag : field.1 < 2 ^ 32) (hfits : field.2.Fits)
    (rest : List UInt8) : decodeField (encodeField field ++ rest) = some (field, rest) := by
  obtain ⟨tag, value⟩ := field
  simp only at htag
  cases value with
  | varint n =>
    have hkey : 8 * tag % 8 = 0 ∧ 8 * tag / 8 = tag := by omega
    simp only [encodeField, decodeField, List.append_assoc,
      decodeVarint_encodeVarint (show 8 * tag < 2 ^ 64 by omega), Option.bind_some, hkey, if_true,
      decodeVarint_encodeVarint hfits, Option.map_some]
  | bytes content =>
    have hkey : (8 * tag + 2) % 8 = 2 ∧ (8 * tag + 2) / 8 = tag := by omega
    have hwire : ¬(2 = 0) := by decide
    simp only [encodeField, decodeField, List.append_assoc,
      decodeVarint_encodeVarint (show 8 * tag + 2 < 2 ^ 64 by omega), Option.bind_some, hkey, hwire,
      if_false, if_true, decodeVarint_encodeVarint hfits, List.length_append, Nat.le_add_right,
      List.take_left', List.drop_left']

/-- A field takes a byte at least. -/
theorem encodeField_length_pos (field : ℕ × Value) : 0 < (encodeField field).length := by
  have h (n : ℕ) : 0 < (encodeVarint n).length := varintBytes_length_pos 9 n
  unfold encodeField
  split <;> simp only [List.length_append] <;> have := h (8 * field.1) <;>
    have := h (8 * field.1 + 2) <;> omega

/-- Fields are read back. -/
theorem readFields_flatMap {fields : List (ℕ × Value)} {count : ℕ}
    (hfields : ∀ field ∈ fields, field.1 < 2 ^ 32 ∧ field.2.Fits) (hcount : fields.length ≤ count) :
    readFields count (fields.flatMap encodeField) = some fields := by
  induction fields generalizing count with
  | nil => cases count <;> rfl
  | cons field rest ih =>
    cases count with
    | zero => simp at hcount
    | succ count =>
      obtain ⟨htag, hfits⟩ := hfields field List.mem_cons_self
      have hread := decodeField_encodeField htag hfits (rest.flatMap encodeField)
      have hrest :=
        ih (fun f hf => hfields f (List.mem_cons_of_mem _ hf)) (Nat.le_of_succ_le_succ hcount)
      rw [List.flatMap_cons]
      have hpos := encodeField_length_pos field
      cases hbytes : encodeField field ++ rest.flatMap encodeField with
      | nil => simp [List.append_eq_nil_iff.mp hbytes] at hpos
      | cons byte tail =>
        rw [readFields, ← hbytes, hread, Option.bind_some, hrest, Option.map_some]

/-- Writing takes a byte for each field at least. -/
theorem length_le_flatMap (fields : List (ℕ × Value)) :
    fields.length ≤ (fields.flatMap encodeField).length := by
  induction fields with
  | nil => simp
  | cons field rest ih =>
    have := encodeField_length_pos field
    simp only [List.flatMap_cons, List.length_append, List.length_cons]
    omega

/-- A message is read back as the fields that were written. -/
theorem decodeMessage_encodeMessage {fields : List (ℕ × Value)}
    (hfields : ∀ field ∈ fields, field.1 < 2 ^ 32 ∧ field.2.Fits) :
    decodeMessage (encodeMessage fields) = some (present fields) :=
  readFields_flatMap (fun field hfield => hfields field (List.mem_of_mem_filter hfield))
    (length_le_flatMap _)

/-- A message is no longer than its bound. -/
theorem encodeMessage_length_le (fields : List (ℕ × Value)) :
    (encodeMessage fields).length ≤ messageSize fields := by
  have hvarint (n : ℕ) : (encodeVarint n).length ≤ 10 := varintBytes_length_le 10 n
  unfold encodeMessage present
  induction fields with
  | nil => simp [messageSize]
  | cons field rest ih =>
    have hfield : (encodeField field).length ≤ 20 + field.2.contentLength := by
      obtain ⟨tag, value⟩ := field
      cases value with
      | varint n =>
        have := hvarint (8 * tag)
        have := hvarint n
        simp only [encodeField, List.length_append, Value.contentLength]
        omega
      | bytes content =>
        have := hvarint (8 * tag + 2)
        have := hvarint content.length
        simp only [encodeField, List.length_append, Value.contentLength]
        omega
    rw [List.filter_cons, messageSize]
    split
    · rw [List.flatMap_cons, List.length_append]
      omega
    · omega

/-! ## Reading the fields of a message -/

/-- A field of another tag is not looked at. -/
theorem lookup_present_ne {fields : List (ℕ × Value)} {field : ℕ × Value} {tag : ℕ}
    (h : tag ≠ field.1) : (present (field :: fields)).lookup tag = (present fields).lookup tag := by
  unfold present
  rw [List.filter_cons]
  split
  · rw [List.lookup_cons, beq_eq_false_iff_ne.mpr h]
  · rfl

/-- No field of the tag follows. -/
theorem lookup_present_of_lt {fields : List (ℕ × Value)} {tag : ℕ}
    (h : ∀ field ∈ fields, tag < field.1) :
    (present fields).lookup tag = none := by
  induction fields with
  | nil => rfl
  | cons field rest ih =>
    rw [lookup_present_ne (Nat.ne_of_lt (h field List.mem_cons_self))]
    exact ih fun f hf => h f (List.mem_cons_of_mem _ hf)

/-- An integer is read back, written or not. -/
theorem getVarint_present {fields : List (ℕ × Value)} {tag n : ℕ}
    (h : ∀ field ∈ fields, tag < field.1) :
    getVarint (present ((tag, .varint n) :: fields)) tag = some n := by
  unfold getVarint
  by_cases hn : n = 0
  · have hnext : (present ((tag, .varint n) :: fields)) = present fields := by
      simp [present, Value.isDefault, hn]
    rw [hnext, lookup_present_of_lt h, hn]
  · have hhead : present ((tag, .varint n) :: fields) = (tag, .varint n) :: present fields := by
      simp [present, Value.isDefault, hn]
    rw [hhead, List.lookup_cons, beq_self_eq_true]

/-- A byte string is read back, written or not. -/
theorem getBytes_present {fields : List (ℕ × Value)} {tag : ℕ} {content : List UInt8}
    (h : ∀ field ∈ fields, tag < field.1) :
    getBytes (present ((tag, .bytes content) :: fields)) tag = some content := by
  unfold getBytes
  by_cases hn : content = []
  · have hnext : (present ((tag, .bytes content) :: fields)) = present fields := by
      simp [present, Value.isDefault, hn]
    rw [hnext, lookup_present_of_lt h, hn]
  · have hhead :
        present ((tag, .bytes content) :: fields) = (tag, .bytes content) :: present fields := by
      simp [present, Value.isDefault, hn]
    rw [hhead, List.lookup_cons, beq_self_eq_true]

/-- An integer of another tag is not looked at. -/
theorem getVarint_present_ne {fields : List (ℕ × Value)} {field : ℕ × Value} {tag : ℕ}
    (h : tag ≠ field.1) :
    getVarint (present (field :: fields)) tag = getVarint (present fields) tag := by
  rw [getVarint, lookup_present_ne h, getVarint]

/-- A byte string of another tag is not looked at. -/
theorem getBytes_present_ne {fields : List (ℕ × Value)} {field : ℕ × Value} {tag : ℕ}
    (h : tag ≠ field.1) :
    getBytes (present (field :: fields)) tag = getBytes (present fields) tag := by
  rw [getBytes, lookup_present_ne h, getBytes]

end Protobuf
