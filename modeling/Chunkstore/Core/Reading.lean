import Chunkstore.Core.View

/-!
# Reading as a function of the state

On a fault-free backend a read changes nothing, and what it returns depends on the file's entry in
the manifest and on the blobs of its digests alone.
-/

open Effects

namespace Chunkstore

theorem writeAll_nil (buf out : Bytes) : writeAll [] buf out = (.ok (), ⟨[], out ++ buf⟩) := by
  cases buf with
  | nil => rw [writeAll, List.append_nil]
  | cons b buf =>
    rw [writeAll]
    exact List.cons_ne_nil b buf

namespace ChunkStore

variable (store : ChunkStore)

/-- What reading a chunk returns, by what the backend holds under its digest. -/
def readStored (digest : String) : Option Bytes → Except ChunkStoreError Bytes
  | none => .error (.notFound s!"chunk {digest}")
  | some stored => do
    let chunk ← store.decodeBlob stored
    verifyDigest store.crates.sha256 chunk digest
    return chunk

/-- What reading a list of chunks returns. -/
def readDigests (find : String → Option Bytes) : List String → Except ChunkStoreError Bytes
  | [] => .ok []
  | digest :: digests => do
    let chunk ← store.readStored digest (find digest)
    let rest ← readDigests find digests
    return chunk ++ rest

def readFile (s : State) (fileId : String) : Except ChunkStoreError Bytes :=
  match s.fields.manifest.tryGet fileId with
  | none => .error (.notFound s!"file {fileId}")
  | some digests => store.readDigests s.find digests

variable {store} {s s' : State} {digest fileId : String} {digests : List String}

private theorem readDigests_congr {find find' : String → Option Bytes}
    (h : ∀ d ∈ digests, find d = find' d) :
    store.readDigests find digests = store.readDigests find' digests := by
  induction digests with
  | nil => rfl
  | cons d digests ih =>
    rw [readDigests, readDigests, h d List.mem_cons_self,
      ih fun e he ↦ h e (List.mem_cons_of_mem d he)]

theorem readFile_congr (hm : s.fields.manifest.tryGet fileId = s'.fields.manifest.tryGet fileId)
    (h : ∀ digests, s'.fields.manifest.tryGet fileId = some digests →
      ∀ d ∈ digests, s.find d = s'.find d) :
    store.readFile s fileId = store.readFile s' fileId := by
  rw [readFile, readFile, hm]
  cases hf : s'.fields.manifest.tryGet fileId with
  | none => rfl
  | some digests => exact readDigests_congr (h digests hf)

/-! ## The programs -/

theorem eval_readChunkByDigest (digest : String) (s : State) :
    callHandler.eval (flat (store.readChunkByDigest digest)).run s
      = (store.readStored digest (s.find digest), s) := by
  have hget : callHandler.eval (flat (store.readChunkByDigest digest)).run s
      = callHandler.eval (flat (match s.find digest with
        | none => throw (.notFound s!"chunk {digest}")
        | some stored => do
          let chunk ← ofExcept (store.decodeBlob stored)
          ofExcept (verifyDigest store.crates.sha256 chunk digest)
          return chunk)).run s := rfl
  rw [hget]
  cases s.find digest with
  | none => rfl
  | some stored =>
    dsimp only
    rw [readStored]
    simp only [flat_bind, flat_ofExcept, flat_pure]
    cases store.decodeBlob stored with
    | error e => rfl
    | ok chunk =>
      rw [ofExcept_ok, pure_bind]
      cases hv : verifyDigest store.crates.sha256 chunk digest with
      | error e =>
        simp only [hv, bind, Except.bind]
        rfl
      | ok u =>
        simp only [hv, bind, Except.bind]
        rfl

/-- The chunks that a loop writes to a `Vec` end up behind what it held. -/
private theorem eval_writeChunks (digests : List String) (out : Bytes) (s : State) :
    let r := callHandler.eval ((store.writeChunks digests ⟨[], out⟩).translate Block.body) s
    r.1.1.map (fun _ ↦ r.1.2.out) = (store.readDigests s.find digests).map (out ++ ·) ∧
    r.2 = s := by
  induction digests generalizing out with
  | nil => exact ⟨congrArg Except.ok (List.append_nil out).symm, rfl⟩
  | cons d digests ih =>
    have hchunk := store.eval_readChunkByDigest d s
    rw [flat, ExceptT.run_mk] at hchunk
    rw [writeChunks, Program.translate_bind, Handler.eval_bind, hchunk, readDigests]
    cases store.readStored d (s.find d) with
    | error e => exact ⟨rfl, rfl⟩
    | ok chunk =>
      dsimp only
      rw [writeAll_nil]
      obtain ⟨hr, hs⟩ := ih (out ++ chunk)
      refine ⟨hr.trans ?_, hs⟩
      cases store.readDigests s.find digests with
      | error e => rfl
      | ok rest => exact congrArg Except.ok (List.append_assoc out chunk rest)

/-- **Reading a file** returns what the state says and leaves it alone. -/
theorem eval_read (fileId : String) (s : State) :
    callHandler.eval (flat (store.read fileId)).run s = (store.readFile s fileId, s) := by
  have hget : callHandler.eval ((digestsForFile fileId).run.translate Block.body) s
      = (s.fields.manifest.get fileId, s) := rfl
  rw [flat, ExceptT.run_mk, read, ExceptT.run_mk, Program.translate_bind, Handler.eval_bind,
    readToWriter, Program.translate_bind, Handler.eval_bind, hget, Manifest.get, readFile,
    Manifest.tryGet]
  cases s.fields.manifest.files.find fileId with
  | none => rfl
  | some digests =>
    obtain ⟨hr, hs⟩ := store.eval_writeChunks digests [] s
    refine Prod.ext (hr.trans ?_) hs
    dsimp only
    cases store.readDigests s.find digests with
    | error e => rfl
    | ok data => rfl

end ChunkStore

end Chunkstore
