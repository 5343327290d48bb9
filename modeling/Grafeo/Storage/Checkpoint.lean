import Grafeo.Storage.Directory

/-!
# Grafeo.Storage.Checkpoint

**The image reader of container v3** (`grafeo-storage/src/file/v3/reader.rs`, `cipher.rs`):
it reads the directory of an image, checks its sections and the places of its chunks, and
fetches the chunks.

A file is its length and its bytes. A write may fail after some of its bytes, and a read of
bytes the file has does not fail. A cipher decrypts what it encrypted, under the same
associated data; that is all the container asks of it.

**The checkpoint writer of container v3** (`grafeo-storage/src/file/v3/writer.rs`). It
stores the chunks of each section in free pages, or takes over chunks of the image it
follows, in place or moved into a free run before their place, and then writes the
directory.

A call returns what the writer is after it also when it fails: a refused chunk can have
used up its identity and its pages. What the outside decides is an argument of the call:
the nonces, and whether its reads and writes fail (`Outcome`). The counts of
`CheckpointStats` and the image's id are left out: the writer reads neither.
-/

namespace Grafeo.Storage

open Common Lib

/-! ### Files -/

/-- A file: its length, and its bytes (what lies past the length says nothing). -/
structure File where
  length : Nat
  byte : Nat → Byte

/-- How a write fails: with a message, after some of its bytes. -/
structure Fault where
  message : String
  written : Nat

namespace File

/-- The `length` bytes at `offset`. -/
def bytesAt (file : File) (offset length : Nat) : List Byte :=
  (List.range length).map fun i => file.byte (offset + i)

/-- Reads exactly `length` bytes at `offset`. -/
def readAt (file : File) (offset length : Nat) : Except Error (List Byte) :=
  if length = 0 ∨ offset + length ≤ file.length then .ok (file.bytesAt offset length)
  else .error (.corruptionAt s!"the file ends within the {length} bytes at offset {offset}" offset)

/-- The file with `bytes` at `offset`; bytes between its end and them are zero. -/
def put (file : File) (offset : Nat) (bytes : List Byte) : File where
  length := if bytes.isEmpty then file.length else max file.length (offset + bytes.length)
  byte i :=
    if offset ≤ i ∧ i < offset + bytes.length then bytes.getD (i - offset) 0
    else if i < file.length then file.byte i
    else 0

/-- Writes `bytes` at `offset`, extending the file when needed. -/
def writeAt (file : File) (offset : Nat) (bytes : List Byte) (fault : Option Fault) :
    Except Error Unit × File :=
  match fault with
  | none => (.ok (), file.put offset bytes)
  | some fault =>
      (.error (.io s!"cannot write {bytes.length} bytes at offset {offset}: {fault.message}"),
        file.put offset (bytes.take fault.written))

end File

/-! ### Ciphers -/

/-- A cipher: what it encrypts with a nonce and associated data it decrypts with the same data. -/
structure ChunkCipher where
  encrypt : List Byte → List Byte → String → Except Error (List Byte)
  decrypt : List Byte → String → Except Error (List Byte)
  decrypt_encrypt : ∀ {plain nonce : List Byte} {aad : String} {stored : List Byte},
    encrypt plain nonce aad = .ok stored → decrypt stored aad = .ok plain

/-- The bytes an encrypted block adds to its plaintext: nonce and tag. -/
def encryptionOverhead : Nat := 12 + 16

/-- The associated data of a chunk: its section and position. -/
def chunkAad (type : SectionType) (chunk : ChunkMeta) : String :=
  s!"grafeo-chunk:{type.toU8.toNat}:{chunk.kind.toByte.toNat}:{chunk.names.toByte.toNat}:" ++
    s!"{chunk.graphId.toNat}:{chunk.columnId.toNat}:{chunk.rowStart.toNat}"

/-- The associated data of a directory block: its offset. -/
def directoryAad (offset : Nat) : String := s!"grafeo-directory:{offset}"

section

variable (cipher : Option ChunkCipher)

def storedExtra : Nat := if cipher.isSome then encryptionOverhead else 0

/-- The bytes as they are stored. -/
def encryptWith (bytes nonce : List Byte) (aad : String) : Except Error (List Byte) :=
  match cipher with
  | some cipher => cipher.encrypt bytes nonce aad
  | none => .ok bytes

/-- The bytes that were stored. -/
def decryptWith (stored : List Byte) (aad : String) : Except Error (List Byte) :=
  match cipher with
  | some cipher => cipher.decrypt stored aad
  | none => .ok stored

theorem decryptWith_encryptWith {cipher : Option ChunkCipher} {bytes nonce stored : List Byte} {aad : String}
    (h : encryptWith cipher bytes nonce aad = .ok stored) : decryptWith cipher stored aad = .ok bytes := by
  cases cipher with
  | none => cases h; rfl
  | some cipher => exact cipher.decrypt_encrypt h

end

/-! ### Sections -/

/-- Where a chunk is stored, for an error. -/
def storedAt (entry : DirectoryEntry) : String :=
  if entry.length = 0 then "without bytes" else s!"at offset {entry.offset}"

/-- Damage in the chunk of `entry`, at its offset when it has bytes. -/
def chunkDamage (entry : DirectoryEntry) (what : String) : Error :=
  .corruption what (if entry.length = 0 then none else some entry.offset)

/-- Of each section met, the version of its first chunk and the identities of its chunks. -/
abbrev SectionTable := SectionType → Option (Byte × ChunkIdentities)

/-- One more entry: of the version of its section, and with an identity new to it. -/
def checkSection (sections : SectionTable) (entry : DirectoryEntry) : Except Error SectionTable :=
  let (version, identities) :=
    (sections entry.sectionType).getD (entry.sectionVersion, {})
  let chunk := entry.chunk
  if entry.sectionVersion ≠ version then
    .error (chunkDamage entry (s!"section {entry.sectionType.debug} has chunks of versions " ++
      s!"{version.toNat} and {entry.sectionVersion.toNat}: the chunk of kind " ++
      s!"{chunk.kind.debug} for graph {chunk.graphId.toNat}, column {chunk.columnId.toNat}, " ++
      s!"first row {chunk.rowStart.toNat} ({storedAt entry}) has version " ++
      s!"{entry.sectionVersion.toNat}, but every chunk of a section carries one version"))
  else
    match identities.insert entry.sectionType entry.chunk with
    | .error (.serialization message) =>
        .error (chunkDamage entry s!"{message}, the second {storedAt entry}")
    | .error other => .error other
    | .ok identities =>
        .ok (Function.update sections entry.sectionType (some (version, identities)))

/-- Every chunk of a section carries one version, and no identity repeats within one. -/
def checkSections (entries : List DirectoryEntry) : Except Error Unit :=
  (entries.foldlM checkSection fun _ => none).map fun _ => ()

/-- Refuses a chunk with bytes that is not page aligned, lies before the data area or ends
beyond the end of the file. -/
def checkPlacement (what : String) (offset length fileLength : Nat) : Except Error Unit :=
  if length = 0 then .ok ()
  else if offset % pageSize ≠ 0 ∨ offset < dataStartPage * pageSize ∨
      (checked (offset + length)).all (fun stop => decide (fileLength < stop)) then
    .error (.corruptionAt (s!"{what} at offset {offset} (length {length}) is misplaced or lies " ++
      s!"beyond the end of the file ({fileLength} bytes)") offset)
  else .ok ()

/-! ### Images -/

/-- The chunks of one image: its known entries, those skipped, and the pages of its directory. -/
abbrev ImageReader := Listing

/-- The chunks of one section of an image. -/
structure SectionChunks where
  entries : List DirectoryEntry
  metas : List ChunkMeta
  version : Byte

section

variable (hash : List Byte → BitVec 32) (cipher : Option ChunkCipher) (file : File)

/-- The bytes of the directory block at `offset`, of the image rooted at `root`. -/
def readBlock (root : BlockRef) (offset length : Nat) : Except Error (List Byte) := do
  let stored ← (file.readAt offset (length + storedExtra cipher)).mapError fun error =>
    inBlock error offset
  (decryptWith cipher stored (directoryAad offset)).mapError fun _ =>
    if offset = root.offset then
      .serialization (s!"the directory block at offset {offset} does not decrypt: a wrong key, " ++
        "or a damaged block")
    else
      .corruptionAt ("a directory block after the first does not decrypt with the key that " ++
        "decrypted the first") offset

/-- The pages the image uses: its chunks, those skipped included, and its directory blocks. -/
def ImageReader.usedRuns (image : ImageReader) : List PageRun :=
  (image.entries.map DirectoryEntry.run ++ image.skipped.map SkippedEntry.run).filter
    (fun run => decide (0 < run.count)) ++ image.runs

/-- Reads the directory of the image rooted at `root`, and checks what it lists. -/
def ImageReader.open (root : BlockRef) : Except Error ImageReader := do
  let image ← decodeChain hash (storedExtra cipher) (readBlock cipher file root) root
  checkSections image.entries
  image.entries.forM fun entry =>
    checkPlacement s!"chunk of section {entry.sectionType.debug}" entry.offset entry.length
      file.length
  image.skipped.forM fun entry =>
    checkPlacement
      s!"skipped chunk of section type {entry.sectionType.toNat}, kind {entry.kind.toNat}"
      entry.offset entry.length file.length
  let _ ← (PageAllocator.fromUsed (ImageReader.usedRuns image)).mapError fun error =>
    match error with
    | .serialization message =>
        .corruption s!"the image with its directory at offset {root.offset}: {message}" none
    | other => other
  pure image

/-- The chunks of one section, `none` when the image has none of it. -/
def ImageReader.ofSection (image : ImageReader) (type : SectionType) : Option SectionChunks :=
  let entries := image.entries.filter fun entry => decide (entry.sectionType = type)
  entries.head?.map fun first =>
    { entries, metas := entries.map DirectoryEntry.chunk, version := first.sectionVersion }

/-- The bytes a chunk is stored in, as the file holds them, checked against its checksum. -/
def storedBytes (entry : DirectoryEntry) : Except Error (List Byte) := do
  let stored ← file.readAt entry.offset entry.length
  if hash stored ≠ entry.crc then
    throw (.corruptionAt (s!"chunk of section {entry.sectionType.debug} at offset " ++
      s!"{entry.offset} fails its checksum") entry.offset)
  pure stored

/-- The bytes of a chunk. -/
def fetchEntry (entry : DirectoryEntry) : Except Error (List Byte) :=
  if entry.length = 0 then .ok []
  else do
    let stored ← storedBytes hash file entry
    (decryptWith cipher stored (chunkAad entry.sectionType entry.chunk)).mapError fun _ =>
      .corruptionAt (s!"chunk of section {entry.sectionType.debug} at offset {entry.offset} " ++
        "does not decrypt with the key that decrypted the directory") entry.offset

/-- The bytes of chunk `index` of the section. -/
def SectionChunks.fetch (chunks : SectionChunks) (index : Nat) : Except Error (List Byte) :=
  match chunks.entries[index]? with
  | none => .error (.internal
      s!"chunk {index} out of range: section has {chunks.entries.length} chunks")
  | some entry => fetchEntry hash cipher file entry

end

/-- What the outside decides about one stored chunk or block. -/
structure Outcome where
  nonce : List Byte := []
  unread : Option String := none
  fault : Option Fault := none

structure CheckpointWriter where
  file : File
  pages : PageAllocator
  entries : List DirectoryEntry := []
  runs : List PageRun := []
  current : Option (SectionType × Byte) := none
  followed : Option ImageReader := none
  previous : Option SectionChunks := none
  relocate : Bool := false
  begun : List SectionType := []
  identities : ChunkIdentities := {}

/-- Where a stored chunk lies. -/
structure Stored where
  offset : Nat
  length : Nat
  crc : BitVec 32

/-- Refuses bytes whose length differs from the length their pages were allocated for. -/
def checkStoredLength (what : String) (offset stored expected : Nat) : Except Error Unit :=
  if stored = expected then .ok ()
  else .error (.internal (s!"{what} at offset {offset} is {stored} bytes, expected {expected}: " ++
    "refusing to write outside its pages"))

namespace CheckpointWriter

/-- The same writer following an image. A reused chunk may move when at least half of the pages
the image spans are free. -/
def following (w : CheckpointWriter) (image : ImageReader) : CheckpointWriter :=
  let runs := ImageReader.usedRuns image
  let used := (runs.map PageRun.count).sum
  let stop := (runs.map fun run => run.first + run.count).max?.getD dataStartPage
  let span := stop - dataStartPage
  { w with relocate := decide (used ≤ span - used), followed := some image }

/-- Starts a section; an error when its type was begun before. -/
def beginSection (w : CheckpointWriter) (type : SectionType) (version : Byte) :
    Except Error Unit × CheckpointWriter :=
  if type ∈ w.begun then
    (.error (.internal s!"section {type.debug} was already written in this checkpoint"),
      { w with current := none })
  else
    (.ok (), { w with
        begun := w.begun ++ [type]
        current := some (type, version)
        identities := {}
        previous := w.followed.bind fun image => ImageReader.ofSection image type })

section

variable (hash : List Byte → BitVec 32) (cipher : Option ChunkCipher)

/-- Encrypts the bytes and writes them into the pages allocated for `expected` bytes. -/
def storeAt (w : CheckpointWriter) (what aad : String) (bytes : List Byte) (run : PageRun)
    (expected : Nat) (outcome : Outcome) : Except Error Stored × CheckpointWriter :=
  match run.offset with
  | .error error => (.error error, w)
  | .ok offset =>
      match encryptWith cipher bytes outcome.nonce aad with
      | .error error => (.error (.internal s!"{what}: {error.display}"), w)
      | .ok stored =>
          match checkStoredLength what offset stored.length expected with
          | .error error => (.error error, w)
          | .ok () =>
              match w.file.writeAt offset stored outcome.fault with
              | (.error error, file) => (.error error, { w with file })
              | (.ok (), file) =>
                  (.ok { offset, length := expected, crc := hash stored },
                    { w with file, runs := w.runs ++ [run] })

/-- Stores the bytes of one chunk in new pages, and records them among the image's runs. Empty
bytes take no page. -/
def store (w : CheckpointWriter) (what aad : String) (bytes : List Byte) (outcome : Outcome) :
    Except Error Stored × CheckpointWriter :=
  if bytes.isEmpty then (.ok { offset := 0, length := 0, crc := hash [] }, w)
  else
    let expected := bytes.length + storedExtra cipher
    if 2 ^ 64 ≤ expected then (.error (.internal s!"{what} is too large"), w)
    else
      match w.pages.allocate (PageRun.forBytes expected) with
      | .error error => (.error (.internal s!"{what}: {error.display}"), w)
      | .ok (run, pages) =>
          storeAt hash cipher { w with pages } what aad bytes run expected outcome

/-- Writes the chunk into free pages of the current section. -/
def writeChunk (w : CheckpointWriter) (chunk : ChunkMeta) (bytes : List Byte) (outcome : Outcome) :
    Except Error Unit × CheckpointWriter :=
  match w.current with
  | none => (.error (.internal "chunk written before a section began"), w)
  | some (type, version) =>
      match w.identities.insert type chunk with
      | .error error => (.error error, w)
      | .ok identities =>
          match store hash cipher { w with identities } s!"chunk of section {type.debug}"
              (chunkAad type chunk) bytes outcome with
          | (.error error, w) => (.error error, w)
          | (.ok stored, w) =>
              (.ok (), { w with
                  entries := w.entries ++ [{
                    sectionType := type
                    sectionVersion := version
                    chunk
                    offset := stored.offset
                    length := stored.length
                    crc := stored.crc
                    flags := DirectoryEntry.flagsFor type chunk.kind }] })

/-- Copies the chunk of `entry` as it is stored into the pages of `target`. -/
def moveChunk (w : CheckpointWriter) (entry : DirectoryEntry) (target : PageRun)
    (outcome : Outcome) : Except Error Nat × CheckpointWriter :=
  match outcome.unread with
  | some message =>
      (.error (.io s!"cannot read {entry.length} bytes at offset {entry.offset}: {message}"), w)
  | none =>
      match storedBytes hash w.file entry with
      | .error error => (.error error, w)
      | .ok stored =>
          match target.offset with
          | .error error => (.error error, w)
          | .ok offset =>
              match w.file.writeAt offset stored outcome.fault with
              | (.error error, file) => (.error error, { w with file })
              | (.ok (), file) => (.ok offset, { w with file, runs := w.runs ++ [target] })

/-- Finds the chunk of `entry` a place: where it is, or a free run before it. -/
def placeReused (w : CheckpointWriter) (entry : DirectoryEntry) (outcome : Outcome) :
    Except Error Nat × CheckpointWriter :=
  if entry.length = 0 then (.ok entry.offset, w)
  else
    match (if w.relocate then w.pages.allocateBefore entry.run.count entry.run.first else none) with
    | some (target, pages) => moveChunk hash { w with pages } entry target outcome
    | none => (.ok entry.offset, { w with runs := w.runs ++ [entry.run] })

/-- Takes over chunk `index` of the followed image's section, with its directory entry as it
was. -/
def reuseChunk (w : CheckpointWriter) (index : Nat) (outcome : Outcome) :
    Except Error Unit × CheckpointWriter :=
  match w.current with
  | none => (.error (.internal "chunk reused before a section began"), w)
  | some (type, version) =>
      match w.previous.bind fun previous => previous.entries[index]? with
      | none => (.error (.internal (s!"section {type.debug}: the image this checkpoint follows " ++
          s!"has no chunk {index} to reuse")), w)
      | some entry =>
          if entry.sectionVersion ≠ version then
            (.error (.internal (s!"section {type.debug}: chunk {index} of the image this " ++
              s!"checkpoint follows is of version {entry.sectionVersion.toNat}, the section is " ++
              s!"written as version {version.toNat}")), w)
          else
            match w.identities.insert type entry.chunk with
            | .error error => (.error error, w)
            | .ok identities =>
                match placeReused hash { w with identities } entry outcome with
                | (.error error, w) => (.error error, w)
                | (.ok offset, w) =>
                    (.ok (), { w with
                        entries := w.entries ++ [{ entry with
                          flags := DirectoryEntry.flagsFor type entry.chunk.kind
                          offset }] })

/-! ### The directory -/

/-- Allocates the pages of a block of `length` bytes: its offset, and the runs with it. -/
def placeBlock (state : PageAllocator × List PageRun) (length : Nat) :
    Except Error (Nat × PageAllocator × List PageRun) :=
  if 2 ^ 64 ≤ length + storedExtra cipher then
    .error (.internal "directory block is too large")
  else do
    let (run, pages) ← state.1.allocate (PageRun.forBytes (length + storedExtra cipher))
    let offset ← run.offset
    pure (offset, pages, state.2 ++ [run])

/-- Writes the blocks of the directory; `outcomes` are those of the blocks. -/
def writeBlocks : File → List (Nat × List Byte) → List Outcome → Except Error File
  | file, [], _ => .ok file
  | file, (offset, block) :: blocks, outcomes => do
      let outcome := outcomes.headD {}
      let stored ← encryptWith cipher block outcome.nonce (directoryAad offset)
      checkStoredLength "directory block" offset stored.length (block.length + storedExtra cipher)
      match file.writeAt offset stored outcome.fault with
      | (.error error, _) => throw error
      | (.ok (), file) => writeBlocks file blocks outcomes.tail

/-- Writes the directory: its root, every run the new image uses, and the file. -/
def finish (w : CheckpointWriter) (outcomes : List Outcome) :
    Except Error (BlockRef × List PageRun × File) := do
  let (root, blocks, _, runs) ← encodeBlocksRaw hash (w.entries.map DirectoryEntry.encode)
    (placeBlock cipher) (w.pages, w.runs)
  let file ← writeBlocks cipher w.file blocks outcomes
  pure (root, runs, file)

end

end CheckpointWriter

/-! ### Calls -/

/-- A call of a section or of the checkpoint. -/
inductive Call where
  | beginSection (type : SectionType) (version : Byte)
  | writeChunk (chunk : ChunkMeta) (bytes : List Byte) (outcome : Outcome)
  | reuseChunk (index : Nat) (outcome : Outcome)

namespace CheckpointWriter

variable (hash : List Byte → BitVec 32) (cipher : Option ChunkCipher)

def call (w : CheckpointWriter) : Call → Except Error Unit × CheckpointWriter
  | .beginSection type version => w.beginSection type version
  | .writeChunk chunk bytes outcome => w.writeChunk hash cipher chunk bytes outcome
  | .reuseChunk index outcome => w.reuseChunk hash index outcome

/-- The writer after the calls, those that fail included. -/
def calls (w : CheckpointWriter) (calls : List Call) : CheckpointWriter :=
  calls.foldl (fun w c => (w.call hash cipher c).2) w

end CheckpointWriter

end Grafeo.Storage
