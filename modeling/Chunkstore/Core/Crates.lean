import Chunkstore.Core.Store
import Chunkstore.Data.Json

/-!
# The crates on small inputs

The parameters of the model are satisfiable. `serdeJson` is the compact text `serde_json` writes for
the three persisted types, with a reader of that text; `smallCdc` is FastCDC below its minimum size,
where it makes one chunk of everything; `knownSha256` is SHA-256 on the few inputs whose digest is
written down. A run on such inputs is what it is with the crates themselves.
-/

open Json

namespace Chunkstore

/-! ## JSON records -/

/-- What `from_slice` makes of a reader that has to use up its input. -/
def fromSlice {α : Type} (expected : String) (reader : Text → Option (α × Text)) (raw : Bytes) :
    Except String α :=
  match reader raw with
  | some (a, []) => .ok a
  | _ => .error expected

theorem fromSlice_eq_ok {α : Type} {expected : String} {reader : Text → Option (α × Text)}
    {t : Text} {a : α} (h : reader t = some (a, [])) : fromSlice expected reader t = .ok a := by
  rw [fromSlice, h]

namespace ManifestRecord

def digestsKey : Text := openBrace :: key "digests"

def fileBytesKey : Text := comma :: key "file_bytes"

/-- A manifest record as it is written. -/
def text (r : ManifestRecord) : Text :=
  digestsKey ++ (ofStrings r.digests ++ (fileBytesKey ++ (Json.ofNat r.fileBytes ++ [closeBrace])))

def reader (t : Text) : Option (ManifestRecord × Text) := do
  let t ← after digestsKey t
  let (digests, t) ← strings t
  let t ← after fileBytesKey t
  let t' ← after [closeBrace] (nat t).2
  return (⟨digests, (nat t).1⟩, t')

theorem reader_text (r : ManifestRecord) : reader r.text = some (r, []) := by
  have hbytes : nat (Json.ofNat r.fileBytes ++ [closeBrace]) = (r.fileBytes, [closeBrace]) :=
    nat_ofNat r.fileBytes (by decide) []
  rw [reader, text, after_append, Option.bind_eq_bind, Option.bind_some, strings_ofStrings,
    Option.bind_eq_bind, Option.bind_some]
  dsimp only
  rw [after_append, Option.bind_some, hbytes]
  rfl

end ManifestRecord

namespace RefCountRecord

def countKey : Text := openBrace :: key "count"

def sizeKey : Text := comma :: key "size"

/-- A refcount record as it is written. -/
def text (r : RefCountRecord) : Text :=
  countKey ++ (Json.ofNat r.count ++ (sizeKey ++ (Json.ofNat r.size ++ [closeBrace])))

/-- A legacy count is read first, then a record, whose size may be missing. -/
def reader (t : Text) : Option (RefCountWire × Text) :=
  match after countKey t with
  | none => if t = [] then none else some (.legacy (nat t).1, (nat t).2)
  | some t =>
    match after sizeKey (nat t).2 with
    | none => (after [closeBrace] (nat t).2).map fun t' ↦ (.record ⟨(nat t).1, 0⟩, t')
    | some u => (after [closeBrace] (nat u).2).map fun t' ↦ (.record ⟨(nat t).1, (nat u).1⟩, t')

theorem reader_text (r : RefCountRecord) : reader r.text = some (.record r, []) := by
  have hcount : nat (Json.ofNat r.count ++ (sizeKey ++ (Json.ofNat r.size ++ [closeBrace])))
      = (r.count, sizeKey ++ (Json.ofNat r.size ++ [closeBrace])) :=
    nat_ofNat r.count (by decide) _
  have hsize : nat (Json.ofNat r.size ++ [closeBrace]) = (r.size, [closeBrace]) :=
    nat_ofNat r.size (by decide) []
  rw [reader, text, after_append]
  dsimp only
  rw [hcount]
  dsimp only
  rw [after_append]
  dsimp only
  rw [hsize]
  rfl

end RefCountRecord

/-- The compact JSON of the persisted types. -/
def serdeJson : Serde where
  stringsToVec := ofStrings
  stringsFromSlice := fromSlice "invalid type: map, expected a sequence at line 1 column 0" strings
  manifestToVec := ManifestRecord.text
  manifestFromSlice := fromSlice "expected value at line 1 column 1" ManifestRecord.reader
  refcountToVec := RefCountRecord.text
  refcountFromSlice := fromSlice
    "data did not match any variant of untagged enum RefCountWire" RefCountRecord.reader
  strings_roundtrip l :=
    fromSlice_eq_ok (by rw [← List.append_nil (ofStrings l), strings_ofStrings])
  manifest_roundtrip r := fromSlice_eq_ok r.reader_text
  refcount_roundtrip r := fromSlice_eq_ok r.reader_text
  strings_of_manifest r := ⟨_, rfl⟩

/-! ## Chunks and digests -/

/-- FastCDC below its minimum size: one chunk, or none of an empty buffer. -/
def smallCdc : FastCdc where
  cut _ _ _ data := if data = [] then [] else [(0, data.length)]
  tiles _ _ _ data := by
    split
    · rename_i h
      rw [h]
      rfl
    · rw [List.map_singleton, List.drop_zero, List.take_length, List.flatten_singleton]

/-- SHA-256 of the empty string, of `a` and of `b`. -/
def knownSha256 (data : Bytes) : Vector UInt8 32 :=
  if data = [] then
    #v[227, 176, 196, 66, 152, 252, 28, 20, 154, 251, 244, 200, 153, 111, 185, 36,
      39, 174, 65, 228, 100, 155, 147, 76, 164, 149, 153, 27, 120, 82, 184, 85]
  else if data = [0x61] then
    #v[202, 151, 129, 18, 202, 27, 189, 202, 250, 194, 49, 179, 154, 35, 220, 77,
      167, 134, 239, 248, 20, 124, 78, 114, 185, 128, 119, 133, 175, 238, 72, 187]
  else if data = [0x62] then
    #v[62, 35, 232, 22, 0, 57, 89, 74, 51, 137, 79, 101, 100, 225, 177, 52,
      139, 189, 122, 0, 136, 212, 44, 74, 203, 115, 238, 174, 213, 156, 0, 157]
  else .replicate 32 0

/-- The crates on small inputs. -/
def smallCrates : Crates := ⟨knownSha256, smallCdc, serdeJson⟩

example : digestHex smallCrates.sha256 [0x61]
    = "ca978112ca1bbdcafac231b39a23dc4da786eff8147c4e72b9807785afee48bb" := by decide +kernel

/-- A store of small inputs without a codec. -/
def smallStore : ChunkStore := ⟨smallCrates, none⟩

end Chunkstore
