import Chunkstore.Core.Footprint
import Chunkstore.Core.Reading
import Chunkstore.Crash.Openable
import Chunkstore.Effects.Pairs

/-!
# A store with a codec and a store without

Two stores on two backends, one of which encodes its chunks. They are *coded* when their fields and
their metadata are the same and every blob of the first is the encoding of the blob of the second.
Each operation is compared with itself on the other store: it returns the same and leaves the two
coded again.

Opening measures stored bytes before the codec is installed. The two stores agree about that only
for blobs whose encoding is as long as they are; `Coded` names the digests for which this is known.
-/

open Effects Program

namespace Chunkstore

/-! ## Codecs -/

namespace ChunkCodec

/-- Every chunk can be encoded, and decodes to itself. -/
def Lossless (codec : ChunkCodec) : Prop := ∀ p, (codec.encode p >>= codec.decode) = .ok p

/-- The stored bytes of a chunk. -/
def encoded (codec : ChunkCodec) (p : Bytes) : Bytes := (codec.encode p).toOption.getD []

variable {codec : ChunkCodec}

theorem Lossless.encode_eq (h : codec.Lossless) (p : Bytes) :
    codec.encode p = .ok (codec.encoded p) := by
  have hp := h p
  rw [encoded]
  cases he : codec.encode p with
  | ok stored => rfl
  | error e =>
    rw [he] at hp
    cases hp

theorem Lossless.decode_encoded (h : codec.Lossless) (p : Bytes) :
    codec.decode (codec.encoded p) = .ok p := codec.decode_encode (h.encode_eq p)

end ChunkCodec

/-- The store that encodes its chunks. -/
def coded (crates : Crates) (codec : ChunkCodec) : ChunkStore := ⟨crates, some codec⟩

/-- The store that keeps them as they are. -/
def plain (crates : Crates) : ChunkStore := ⟨crates, none⟩

/-! ## Coded states -/

/-- Every digest list of the manifest names chunks. -/
def Manifest.NamesChunks (m : Manifest) : Prop :=
  ∀ fileId digests, m.tryGet fileId = some digests → ∀ d ∈ digests, isChunkDigest d = true

/-- `s` is `t` with its blobs encoded. The encodings of the blobs in `L` are as long as the
blobs. -/
structure Coded (codec : ChunkCodec) (L : String → Prop) (s t : State) : Prop where
  fields : s.fields = t.fields
  lists : s.backend.lists = t.backend.lists
  keys : s.backend.data.keys = t.backend.data.keys
  metadata : ∀ k, isChunkDigest k = false → s.find k = t.find k
  blobs : ∀ d, isChunkDigest d = true → s.find d = (t.find d).map codec.encoded
  length : ∀ d raw, L d → t.find d = some raw → (codec.encoded raw).length = raw.length
  named : t.fields.manifest.NamesChunks

def noDigest : String → Prop := fun _ ↦ False

namespace Coded

variable {codec : ChunkCodec} {L L' : String → Prop} {s t : State} {key : String}

theorem of_length (h : Coded codec L s t) (hl : ∀ d raw, L' d → t.find d = some raw →
    (codec.encoded raw).length = raw.length) : Coded codec L' s t :=
  ⟨h.fields, h.lists, h.keys, h.metadata, h.blobs, hl, h.named⟩

theorem forget (h : Coded codec L s t) : Coded codec noDigest s t :=
  h.of_length fun _ _ hd ↦ hd.elim

theorem isSome_find (h : Coded codec L s t) (k : String) :
    (s.find k).isSome = (t.find k).isSome := by
  cases hk : isChunkDigest k with
  | true => rw [h.blobs k hk, Option.isSome_map]
  | false => rw [h.metadata k hk]

theorem put (h : Coded codec L s t) (hk : isChunkDigest key = false) (hL : ∀ d, L d → d ≠ key)
    (data : Bytes) : Coded codec L (s.put key data) (t.put key data) := by
  refine ⟨h.fields, h.lists, ?_, fun k hk' ↦ ?_, fun d hd ↦ ?_, fun d raw hd hraw ↦ ?_, h.named⟩
  · exact (AList.keys_insert _).trans
      ((congrArg (fun l ↦ key :: List.erase l key) h.keys).trans (AList.keys_insert _).symm)
  · rw [State.find_put, State.find_put, h.metadata k hk']
  · have hne := ne_of_isChunkDigest hd hk
    rw [State.find_put_ne hne, State.find_put_ne hne, h.blobs d hd]
  · rw [State.find_put_ne (hL d hd)] at hraw
    exact h.length d raw hd hraw

theorem del (h : Coded codec L s t) (key : String) : Coded codec L (s.del key) (t.del key) := by
  refine ⟨h.fields, h.lists, ?_, fun k hk ↦ ?_, fun d hd ↦ ?_, fun d raw hd hraw ↦ ?_, h.named⟩
  · exact (AList.keys_erase _ _).trans
      ((congrArg (fun l ↦ List.erase l key) h.keys).trans (AList.keys_erase _ _).symm)
  · rw [State.find_del, State.find_del, h.metadata k hk]
  · rw [State.find_del, State.find_del, h.blobs d hd]
    split <;> rfl
  · rw [State.find_del] at hraw
    split at hraw
    · cases hraw
    · exact h.length d raw hd hraw

theorem withFields (h : Coded codec L s t) {f : Fields} (hf : f.manifest.NamesChunks) :
    Coded codec L (s.withFields f) (t.withFields f) :=
  ⟨rfl, h.lists, h.keys, h.metadata, h.blobs, h.length, hf⟩

end Coded

private theorem namesChunks_insert {m m' : Manifest} {fileId : String} {digests : List String}
    {fileBytes : ℕ} (h : m.NamesChunks) (hd : ∀ d ∈ digests, isChunkDigest d = true)
    (hm : m.insert fileId digests fileBytes = .ok m') : m'.NamesChunks := by
  by_cases hf : fileId = ""
  · rw [hf, Manifest.insert_empty] at hm
    cases hm
  · rw [Manifest.insert_eq_ok hf] at hm
    cases hm
    intro g ds hds
    rw [Manifest.tryGet, Table.find_set] at hds
    split at hds
    · cases hds
      exact hd
    · exact h g ds hds

private theorem namesChunks_remove {m : Manifest} (fileId : String) (h : m.NamesChunks) :
    (m.remove fileId).2.NamesChunks := by
  intro g ds hds
  rw [Manifest.remove, Manifest.tryGet, Table.find_unset] at hds
  split at hds
  · cases hds
  · exact h g ds hds

/-! ## Requests that meet no blob -/

/-- A request that neither reads nor writes the bytes of a blob, nor puts anything else than chunk
names on a digest list. -/
def Call.OffBlobs : {δ : Type} → Call δ → Prop
  | _, .backend (.get key) => isChunkDigest key = false
  | _, .backend (.put key _) => isChunkDigest key = false
  | _, .field (.construct manifest _) => manifest.NamesChunks
  | _, .field (.manifestInsert _ digests _) => ∀ d ∈ digests, isChunkDigest d = true
  | _, _ => True

/-- Such a request is answered the same in coded states and leaves coded states. -/
theorem coded_handle {codec : ChunkCodec} {L : String → Prop}
    (hL : ∀ d, L d → isChunkDigest d = true)
    {δ : Type} (c : Call δ) (s t : State) (hc : c.OffBlobs) (h : Coded codec L s t) :
    (callHandler.handle c s).1 = (callHandler.handle c t).1 ∧
      Coded codec L (callHandler.handle c s).2 (callHandler.handle c t).2 := by
  cases c with
  | backend c =>
    cases c with
    | get key => exact ⟨congrArg Except.ok (h.metadata key hc), h⟩
    | put key data => exact ⟨rfl, h.put hc (fun d hd ↦ ne_of_isChunkDigest (hL d hd) hc) data⟩
    | existsKey key => exact ⟨congrArg Except.ok (h.isSome_find key), h⟩
    | delete key => exact ⟨rfl, h.del key⟩
    | listKeys pre =>
      refine ⟨congrArg Except.ok ?_, h⟩
      change (if s.backend.lists = true then _ else _) = if t.backend.lists = true then _ else _
      rw [h.lists, h.keys]
  | field a =>
    have hrun : a.run s.fields = a.run t.fields := by rw [h.fields]
    refine ⟨show (a.run s.fields).1 = (a.run t.fields).1 by rw [hrun], ?_⟩
    change Coded codec L (s.withFields (a.run s.fields).2) (t.withFields (a.run t.fields).2)
    rw [hrun]
    refine h.withFields ?_
    cases a with
    | construct m rc => exact hc
    | manifestInsert f ds n =>
      rw [FieldAccess.run]
      cases hm : t.fields.manifest.insert f ds n with
      | ok m => exact namesChunks_insert h.named hc hm
      | error e => exact h.named
    | manifestRemove f => exact namesChunks_remove f h.named
    | refcountIncrement d n =>
      rw [FieldAccess.run]
      split <;> exact h.named
    | refcountDecrement d =>
      rw [FieldAccess.run]
      split <;> exact h.named
    | _ => exact h.named

section Metadata

variable {crates : Crates} {key fileId digest : String}

theorem offBlobs_readStringList (hk : isChunkDigest key = false) :
    Makes Call.OffBlobs (readStringList crates key) := by
  refine (makes_backendCall hk).bind fun raw ↦ ?_
  cases raw with
  | none => exact makes_pure _
  | some raw =>
    dsimp only
    cases crates.serde.stringsFromSlice raw with
    | ok l => exact makes_pure l
    | error e => exact makes_throw _

theorem offBlobs_saveManifest (digests : List String) (fileBytes : ℕ) :
    Makes Call.OffBlobs (saveManifest crates fileId digests fileBytes) :=
  (makes_ofExcept _).bind fun _ ↦ (makes_backendCall (isChunkDigest_manifestKey fileId)).bind
    fun _ ↦ (offBlobs_readStringList isChunkDigest_manifestIndexKey).bind fun _ ↦
      makes_ite (makes_pure _) (makes_backendCall isChunkDigest_manifestIndexKey)

theorem offBlobs_removeManifest : Makes Call.OffBlobs (removeManifest crates fileId) :=
  (makes_backendCall trivial).bind fun _ ↦
    (offBlobs_readStringList isChunkDigest_manifestIndexKey).bind fun _ ↦
      makes_backendCall isChunkDigest_manifestIndexKey

theorem offBlobs_saveRefcount (count size : ℕ) :
    Makes Call.OffBlobs (saveRefcount crates digest count size) :=
  (makes_ofExcept _).bind fun _ ↦ (makes_backendCall (isChunkDigest_refcountKey digest)).bind
    fun _ ↦ (offBlobs_readStringList isChunkDigest_refcountIndexKey).bind fun _ ↦
      makes_ite (makes_pure _) (makes_backendCall isChunkDigest_refcountIndexKey)

theorem offBlobs_removeRefcount : Makes Call.OffBlobs (removeRefcount crates digest) :=
  (makes_backendCall trivial).bind fun _ ↦
    (offBlobs_readStringList isChunkDigest_refcountIndexKey).bind fun _ ↦
      makes_backendCall isChunkDigest_refcountIndexKey

theorem offBlobs_loadManifests : Makes Call.OffBlobs (loadManifests crates) := by
  refine (offBlobs_readStringList isChunkDigest_manifestIndexKey).bind fun index ↦
    makes_foldlM (fun m f ↦ ?_) _ _
  refine (makes_backendCall (isChunkDigest_manifestKey f)).bind fun raw ↦ ?_
  cases raw with
  | none => exact makes_throw _
  | some raw =>
    dsimp only
    cases crates.serde.manifestFromSlice raw with
    | error e => exact makes_throw _
    | ok record => exact (makes_ofExcept _).bind fun _ ↦ makes_ofExcept _

theorem offBlobs_loadRefcounts : Makes Call.OffBlobs (loadRefcounts crates) := by
  refine (offBlobs_readStringList isChunkDigest_refcountIndexKey).bind fun index ↦
    makes_foldlM (fun rc d ↦ ?_) _ _
  refine (makes_ofExcept _).bind fun _ ↦
    (makes_backendCall (isChunkDigest_refcountKey d)).bind fun raw ↦ ?_
  cases raw with
  | none => exact makes_throw _
  | some raw =>
    exact (makes_ofExcept _).bind fun r ↦ makes_ite (makes_pure _) (makes_pure _)

end Metadata

end Chunkstore
