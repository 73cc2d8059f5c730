import Mathlib.Data.Vector.Basic
import Mathlib.Data.List.Basic
import Mathlib.Data.Nat.Notation
import Mathlib.Tactic.TypeStar

/-!
# Bytes, errors and digests

The value types every other module is written in, and the hexadecimal digest that addresses a chunk
(`error.rs`, `hasher.rs`, `codec.rs`, and the two digest checks of `persistence.rs` and `fsck.rs`).

## What is a parameter

The hash itself is the `sha2` crate, so it enters as a function to 32 bytes about which nothing is
assumed. Results that need distinct chunks to have distinct digests say so, about the chunks of the
run they speak of.
-/

namespace Chunkstore

abbrev Bytes := List UInt8

/-- Errors returned by chunkstore core operations. -/
inductive ChunkStoreError
  | backendError (msg : String)
  | digestMismatch (expected actual : String)
  | notFound (msg : String)
  | invalidArgument (msg : String)
  | lockError
  | ioError (msg : String)
  deriving DecidableEq, Repr

/-- The `sha2` crate: a digest of 32 bytes. -/
abbrev Sha256 := Bytes → Vector UInt8 32

/-! ## Hexadecimal digests -/

/-- The digits of `hex::encode`. -/
def hexDigits : List Char := "0123456789abcdef".toList

def hexDigit (n : UInt8) : Char := hexDigits.getD n.toNat '0'

/-- Lowercase hexadecimal text, two digits a byte. -/
def hexEncode (bytes : List UInt8) : String :=
  .ofList (bytes.flatMap fun (b : UInt8) ↦ [hexDigit (b >>> 4), hexDigit (b &&& 0x0f)])

/-- SHA-256 digest of `data` as a 64-character lowercase hex string. -/
def digestHex (sha256 : Sha256) (data : Bytes) : String := hexEncode (sha256 data).toList

/-- Verify that `data` matches the expected hex digest. -/
def verifyDigest (sha256 : Sha256) (data : Bytes) (expectedHex : String) :
    Except ChunkStoreError Unit :=
  if digestHex sha256 data = expectedHex then .ok ()
  else .error (.digestMismatch expectedHex (digestHex sha256 data))

/-- `u8::is_ascii_hexdigit`. -/
def isHexByte (b : UInt8) : Bool :=
  (48 ≤ b && b ≤ 57) || (97 ≤ b && b ≤ 102) || (65 ≤ b && b ≤ 70)

/-- A name of 64 bytes, all of them hexadecimal digits. -/
def isChunkDigest (name : String) : Bool :=
  name.utf8ByteSize == 64 && name.toByteArray.data.toList.all isHexByte

/-- The digest check of the metadata files. It goes over the characters of the digest, which is the
same: `isChunkDigest_eq_chars`. -/
def validateDigest (digest : String) : Except ChunkStoreError Unit :=
  if isChunkDigest digest then .ok ()
  else .error (.invalidArgument s!"invalid digest: {digest}")

/-- `char::is_ascii_hexdigit`. -/
def isAsciiHexdigit (c : Char) : Bool :=
  ('0' ≤ c && c ≤ '9') || ('a' ≤ c && c ≤ 'f') || ('A' ≤ c && c ≤ 'F')

theorem isAsciiHexdigit_hexDigit (n : UInt8) : isAsciiHexdigit (hexDigit n) = true := by
  have h : ∀ c ∈ hexDigits, isAsciiHexdigit c = true :=
    List.all_eq_true.mp (by decide)
  rw [hexDigit, List.getD_eq_getElem?_getD]
  cases hc : hexDigits[n.toNat]? with
  | none => decide
  | some c => exact h c (List.mem_of_getElem? hc)

theorem utf8Size_of_isAsciiHexdigit {c : Char} (h : isAsciiHexdigit c = true) :
    c.utf8Size = 1 := by
  rw [Char.utf8Size_eq_one_iff]
  have h9 : ('9' : Char).val.toNat = 57 := rfl
  have hf : ('f' : Char).val.toNat = 102 := rfl
  have hF : ('F' : Char).val.toNat = 70 := rfl
  have h127 : (127 : UInt32).toNat = 127 := rfl
  simp only [isAsciiHexdigit, Bool.or_eq_true, Bool.and_eq_true, decide_eq_true_eq, Char.le_def,
    UInt32.le_iff_toNat_le] at h ⊢
  omega

theorem isAsciiHexdigit_of_isDigit {c : Char} (h : c.isDigit = true) :
    isAsciiHexdigit c = true := by
  rw [isAsciiHexdigit, Bool.or_eq_true, Bool.or_eq_true]
  exact Or.inl (Or.inl h)

/-- A character is a digit exactly when its bytes are. -/
private theorem all_isHexByte_utf8EncodeChar (c : Char) :
    (String.utf8EncodeChar c).all isHexByte = isAsciiHexdigit c := by
  by_cases h : c.val.toNat ≤ 0x7f
  · have hall : ∀ n, n < 128 → (String.utf8EncodeChar (.ofNat n)).all isHexByte
        = isAsciiHexdigit (.ofNat n) := by decide
    have hc := hall c.toNat (Nat.lt_succ_of_le h)
    rwa [Char.ofNat_toNat] at hc
  · have hno : isAsciiHexdigit c = false := by
      rw [← Bool.not_eq_true]
      exact fun hc ↦ h (Char.utf8Size_eq_one_iff.mp (utf8Size_of_isAsciiHexdigit hc))
    -- the first byte of a longer encoding is at least 0xc0
    have hfirst : ∀ n, n < 64 → isHexByte (.ofNat (n + 0xc0)) = false := by decide
    rw [hno, String.utf8EncodeChar, if_neg h]
    split
    · rw [List.all_cons, hfirst _ (by omega), Bool.false_and]
    · split
      · rw [List.all_cons, show c.val.toNat / 4096 % 16 + 0xe0 = c.val.toNat / 4096 % 16 + 32 + 0xc0
          by omega, hfirst _ (by omega), Bool.false_and]
      · rw [List.all_cons, show c.val.toNat / 262144 % 8 + 0xf0
          = c.val.toNat / 262144 % 8 + 48 + 0xc0 by omega, hfirst _ (by omega), Bool.false_and]

theorem isChunkDigest_eq_chars (name : String) :
    isChunkDigest name = (name.utf8ByteSize == 64 && name.toList.all isAsciiHexdigit) := by
  have hbytes : name.toByteArray.data.toList = name.toList.flatMap String.utf8EncodeChar := by
    have h : name.toByteArray = (name.toList.flatMap String.utf8EncodeChar).toByteArray :=
      congrArg String.toByteArray (String.ofList_toList (s := name)).symm
    rw [h, List.data_toByteArray]
  rw [isChunkDigest, hbytes, List.all_flatMap]
  exact congrArg _ (List.all_congr rfl fun c ↦ all_isHexByte_utf8EncodeChar c)

theorem utf8ByteSize_ofList {l : List Char} (h : ∀ c ∈ l, c.utf8Size = 1) :
    (String.ofList l).utf8ByteSize = l.length := by
  induction l with
  | nil => rfl
  | cons c l ih =>
    rw [String.ofList_cons, String.utf8ByteSize_append, String.utf8ByteSize_singleton,
      h c List.mem_cons_self, ih fun d hd ↦ h d (List.mem_cons_of_mem c hd), List.length_cons,
      Nat.add_comm]

private theorem toList_hexEncode (bytes : List UInt8) :
    (hexEncode bytes).toList
      = bytes.flatMap fun (b : UInt8) ↦ [hexDigit (b >>> 4), hexDigit (b &&& 0x0f)] :=
  String.toList_ofList

/-- **Every digest is a chunk name**: 64 hexadecimal digits. -/
@[simp] theorem isChunkDigest_digestHex (sha256 : Sha256) (data : Bytes) :
    isChunkDigest (digestHex sha256 data) = true := by
  have hall : ∀ c ∈ (digestHex sha256 data).toList, isAsciiHexdigit c = true := by
    intro c hc
    rw [digestHex, toList_hexEncode, List.mem_flatMap] at hc
    obtain ⟨b, -, hb⟩ := hc
    simp only [List.mem_cons, List.not_mem_nil, or_false] at hb
    rcases hb with rfl | rfl <;> exact isAsciiHexdigit_hexDigit _
  have hsize : (digestHex sha256 data).utf8ByteSize = 64 := by
    rw [← String.ofList_toList (s := digestHex sha256 data),
      utf8ByteSize_ofList fun c hc ↦ utf8Size_of_isAsciiHexdigit (hall c hc), digestHex,
      toList_hexEncode, List.length_flatMap]
    simp
  rw [isChunkDigest_eq_chars, hsize, Bool.and_eq_true]
  exact ⟨rfl, List.all_eq_true.mpr hall⟩

theorem isChunkDigest_eq_false {name : String} {c : Char} (hc : c ∈ name.toList)
    (h : isAsciiHexdigit c = false) : isChunkDigest name = false := by
  rw [isChunkDigest_eq_chars, Bool.and_eq_false_iff]
  refine Or.inr ?_
  rw [← Bool.not_eq_true, List.all_eq_true]
  intro hall
  rw [hall c hc] at h
  exact Bool.noConfusion h

theorem validateDigest_eq_ok {digest : String} :
    validateDigest digest = .ok () ↔ isChunkDigest digest = true := by
  rw [validateDigest]
  split <;> simp_all

@[simp] theorem validateDigest_digestHex (sha256 : Sha256) (data : Bytes) :
    validateDigest (digestHex sha256 data) = .ok () :=
  validateDigest_eq_ok.mpr (isChunkDigest_digestHex sha256 data)

theorem verifyDigest_eq_ok {sha256 : Sha256} {data : Bytes} {expectedHex : String} :
    verifyDigest sha256 data expectedHex = .ok () ↔ digestHex sha256 data = expectedHex := by
  rw [verifyDigest]
  split <;> simp_all

/-! ## Codecs -/

/-- Optional transform applied to blob bytes on put and get. The digest stays that of the plaintext.
Implementations must be deterministic, `decode(encode(p)) == p`, so the law is a field. -/
structure ChunkCodec where
  encode : Bytes → Except ChunkStoreError Bytes
  decode : Bytes → Except ChunkStoreError Bytes
  decode_encode : ∀ {p stored : Bytes}, encode p = .ok stored → decode stored = .ok p

/-- The no-op codec. -/
def IdentityCodec : ChunkCodec where
  encode := .ok
  decode := .ok
  decode_encode h := h.symm

end Chunkstore
