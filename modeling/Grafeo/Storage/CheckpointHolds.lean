import Grafeo.Storage.Opens

/-!
# Grafeo.Storage.CheckpointHolds

**What one call of the checkpoint writer does** to the file and its pages. It writes only
into pages that were free (`Advances`), whether it fails or not; a chunk that is stored
or moved lies in a run taken from them, and is read back there (`Placement`).

**The invariant of a checkpoint** that follows an image: each entry listed so far is that
of the chunk that was written or reused, and is fetched as it (`Holds`); the runs are those
of the entries and share no page; no page of the followed image is written (`Inv`). Every
call keeps it (`Inv.call`), so every sequence of calls does (`Inv.calls`).
-/

namespace Grafeo.Storage

open Common Lib DirectoryEntry

namespace CheckpointWriter

variable {hash : List Byte → BitVec 32} {cipher : Option ChunkCipher} {w w' : CheckpointWriter}

/-- The pages that are not free stay so, and their bytes stay as they are. -/
structure Advances (w w' : CheckpointWriter) : Prop where
  ok : w'.pages.Ok
  shrinks : ∀ page, w'.pages.Free page → w.pages.Free page
  untouched : Untouched (fun page => ¬w.pages.Free page) w.file w'.file

theorem Advances.refl (h : w.pages.Ok) : Advances w w :=
  ⟨h, fun _ hfree => hfree, .refl ..⟩

/-- The writer differs in its file, its pages and its runs alone. -/
structure SameSession (w w' : CheckpointWriter) : Prop where
  entries : w'.entries = w.entries
  current : w'.current = w.current
  followed : w'.followed = w.followed
  previous : w'.previous = w.previous
  begun : w'.begun = w.begun
  identities : w'.identities = w.identities

theorem SameSession.set (w : CheckpointWriter) (file : File) (pages : PageAllocator)
    (runs : List PageRun) : SameSession w { w with file, pages, runs } :=
  ⟨rfl, rfl, rfl, rfl, rfl, rfl⟩

/-- The bytes `raw` lie at `offset`, in a run of pages that were free. -/
structure Placement (w w' : CheckpointWriter) (offset : Nat) (raw : List Byte) : Prop where
  nonempty : raw ≠ []
  runs : w'.runs = w.runs ++ [runOf offset raw.length]
  aligned : offset % pageSize = 0
  placed : (runOf offset raw.length).Placed
  free : ∀ page, (runOf offset raw.length).Has page → w.pages.Free page
  taken : ∀ page, (runOf offset raw.length).Has page → ¬w'.pages.Free page
  stop : offset + raw.length ≤ w'.file.length
  read : w'.file.readAt offset raw.length = .ok raw

theorem Placement.length_ne_zero {offset : Nat} {raw : List Byte} (h : Placement w w' offset raw) :
    raw.length ≠ 0 :=
  fun hzero => h.nonempty (List.eq_nil_of_length_eq_zero hzero)

/-- A write into a run that was taken, whole or in part. -/
theorem advances_put {pages : PageAllocator} {run : PageRun} (htakes : w.pages.Takes run pages)
    {bytes : List Byte} (hfits : bytes.length ≤ run.count * pageSize) (runs : List PageRun) :
    Advances w { w with
      file := w.file.put (run.first * pageSize) bytes
      pages
      runs } where
  ok := htakes.ok
  shrinks page hfree := ((htakes.left page).mp hfree).1
  untouched := (Untouched.put w.file hfits).mono fun page hnot hhas => hnot (htakes.free page hhas)

theorem placement_put {pages : PageAllocator} {run : PageRun} (htakes : w.pages.Takes run pages)
    {raw : List Byte} (hne : raw ≠ []) (hcount : run.count = PageRun.forBytes raw.length) :
    Placement w { w with
      file := w.file.put (run.first * pageSize) raw
      pages
      runs := w.runs ++ [run] } (run.first * pageSize) raw := by
  have hrun : runOf (run.first * pageSize) raw.length = run := by
    rw [runOf_mul, ← hcount]
  refine
    { nonempty := hne
      runs := by rw [hrun]
      aligned := Nat.mul_mod_left run.first pageSize
      placed := by rw [hrun]; exact htakes.placed
      free page hhas := by rw [hrun] at hhas; exact htakes.free page hhas
      taken page hhas hfree := by
        rw [hrun] at hhas
        exact ((htakes.left page).mp hfree).2 hhas
      stop := File.add_length_le_put _ _ hne
      read := File.readAt_put _ _ hne }

/-- A run that was taken and not written. -/
theorem advances_take {pages : PageAllocator} {run : PageRun} (htakes : w.pages.Takes run pages) :
    Advances w { w with pages } :=
  ⟨htakes.ok, fun page hfree => ((htakes.left page).mp hfree).1, .refl ..⟩

theorem eq_of_checked {what : String} {offset stored expected : Nat}
    (h : checkStoredLength what offset stored expected = .ok ()) : stored = expected := by
  unfold checkStoredLength at h
  split at h
  · assumption
  · cases h

/-! ### New chunks -/

/-- What `store` does: it stores the encrypted bytes, or nothing when there are none. -/
theorem store_spec {what aad : String} {bytes : List Byte} {outcome : Outcome}
    {result : Except Error Stored}
    (hstore : w.store hash cipher what aad bytes outcome = (result, w')) (h : w.pages.Ok) :
    Advances w w' ∧ SameSession w w' ∧
      match result with
      | .error _ => w'.runs = w.runs
      | .ok stored =>
        (bytes = [] ∧ w' = w ∧ stored = { offset := 0, length := 0, crc := hash [] }) ∨
        ∃ raw, Placement w w' stored.offset raw ∧ stored.length = raw.length ∧
          stored.crc = hash raw ∧ decryptWith cipher raw aad = .ok bytes := by
  unfold store at hstore
  split at hstore
  next hempty =>
    cases hstore
    exact ⟨.refl h, .set w .., .inl ⟨List.isEmpty_iff.mp hempty, rfl, rfl⟩⟩
  rename_i hbytes
  dsimp only at hstore
  split at hstore
  · cases hstore
    exact ⟨.refl h, .set w .., rfl⟩
  split at hstore
  · cases hstore
    exact ⟨.refl h, .set w .., rfl⟩
  rename_i run pages hallocate
  have hlength : 0 < bytes.length := List.length_pos_iff.mpr fun hnil => hbytes (by rw [hnil]; rfl)
  have hexpected : 0 < PageRun.forBytes (bytes.length + storedExtra cipher) :=
    forBytes_pos.mpr (by omega)
  obtain ⟨hcount, htakes⟩ := PageAllocator.allocate_spec h hexpected hallocate
  unfold storeAt at hstore
  rw [offset_eq_ok htakes.placed] at hstore
  dsimp only at hstore
  split at hstore
  · cases hstore
    exact ⟨advances_take htakes, .set w .., rfl⟩
  rename_i raw hraw
  split at hstore
  · cases hstore
    exact ⟨advances_take htakes, .set w .., rfl⟩
  rename_i hchecked
  have hsize := eq_of_checked hchecked
  have hfits : raw.length ≤ run.count * pageSize := by
    rw [hcount, hsize]
    exact le_forBytes _
  cases hfault : outcome.fault with
  | some fault =>
    rw [hfault] at hstore
    cases hstore
    exact ⟨advances_put htakes ((List.length_take_le' ..).trans hfits) w.runs, .set w .., rfl⟩
  | none =>
    rw [hfault] at hstore
    cases hstore
    have hne : raw ≠ [] := List.length_pos_iff.mp (by omega)
    refine ⟨advances_put htakes hfits _, .set w .., .inr ⟨raw, placement_put htakes hne ?_, hsize.symm,
      rfl, decryptWith_encryptWith hraw⟩⟩
    rw [hcount, hsize]

/-! ### Chunks of the followed image -/

/-- What `placeReused` does with a chunk: it moves it, or leaves it where it is. -/
theorem placeReused_spec {entry : DirectoryEntry} {outcome : Outcome} {result : Except Error Nat}
    (hplace : w.placeReused hash entry outcome = (result, w')) (h : w.pages.Ok) :
    Advances w w' ∧ SameSession w w' ∧
      match result with
      | .error _ => w'.runs = w.runs
      | .ok offset =>
        (entry.length = 0 ∧ w' = w ∧ offset = entry.offset) ∨
        (entry.length ≠ 0 ∧ offset = entry.offset ∧ w' = { w with runs := w.runs ++ [entry.run] }) ∨
        ∃ raw, Placement w w' offset raw ∧ entry.length = raw.length ∧
          storedBytes hash w.file entry = .ok raw := by
  unfold placeReused at hplace
  split at hplace
  next hzero =>
    cases hplace
    exact ⟨.refl h, .set w .., .inl ⟨hzero, rfl, rfl⟩⟩
  rename_i hlength
  split at hplace
  next target pages hbefore =>
    split at hbefore
    · obtain ⟨hcount, htakes⟩ := PageAllocator.allocateBefore_spec h hbefore
      unfold moveChunk at hplace
      split at hplace
      · cases hplace
        exact ⟨advances_take htakes, .set w .., rfl⟩
      split at hplace
      · cases hplace
        exact ⟨advances_take htakes, .set w .., rfl⟩
      rename_i raw hraw
      rw [offset_eq_ok htakes.placed] at hplace
      have hsize := File.length_of_readAt (storedBytes_eq_ok.mp hraw).1
      have hcounts : target.count = PageRun.forBytes raw.length := by
        rw [hcount, hsize]
        rfl
      have hfits : raw.length ≤ target.count * pageSize := hcounts ▸ le_forBytes _
      cases hfault : outcome.fault with
      | some fault =>
        rw [hfault] at hplace
        cases hplace
        exact ⟨advances_put htakes ((List.length_take_le' ..).trans hfits) w.runs, .set w .., rfl⟩
      | none =>
        rw [hfault] at hplace
        cases hplace
        have hne : raw ≠ [] := List.length_pos_iff.mp (by omega)
        exact ⟨advances_put htakes hfits _, .set w .., .inr (.inr
          ⟨raw, placement_put htakes hne hcounts, hsize.symm, hraw⟩)⟩
    · cases hbefore
  · cases hplace
    exact ⟨{ Advances.refl h with }, .set w .., .inr (.inl ⟨hlength, rfl, rfl⟩)⟩

end CheckpointWriter

open List Option

/-- What a listed chunk holds: bytes that were written, or a chunk of the followed image. -/
inductive Held where
  | written (bytes : List Byte)
  | reused (entry : DirectoryEntry)
deriving DecidableEq

/-- A chunk a checkpoint lists. -/
structure ListedChunk where
  sectionType : SectionType
  sectionVersion : Byte
  chunk : ChunkMeta
  held : Held
deriving DecidableEq

/-- The page is one of the image's. -/
def Uses (image : ImageReader) (page : Nat) : Prop :=
  ∃ run ∈ ImageReader.usedRuns image, run.Has page

namespace CheckpointWriter

section

variable (hash : List Byte → BitVec 32) (cipher : Option ChunkCipher) {old : DirectoryEntry}
  {result : Except Error Unit} {type : SectionType}

/-- The chunk a call lists: that of a write or reuse that does not fail. -/
def lists (w : CheckpointWriter) (c : Call) : Option ListedChunk :=
  match (w.call hash cipher c).1, w.current with
  | .ok (), some (sectionType, sectionVersion) =>
      match c with
      | .beginSection .. => none
      | .writeChunk chunk bytes _ =>
          some { sectionType, sectionVersion, chunk, held := .written bytes }
      | .reuseChunk index _ =>
          (w.previous.bind fun previous => previous.entries[index]?).map fun entry =>
            { sectionType, sectionVersion, chunk := entry.chunk, held := .reused entry }
  | _, _ => none

/-- The chunks a sequence of calls lists, in order. -/
def listed (w : CheckpointWriter) : List Call → List ListedChunk
  | [] => []
  | c :: calls => (w.lists hash cipher c).toList ++ listed (w.call hash cipher c).2 calls

end

variable {hash : List Byte → BitVec 32} {cipher : Option ChunkCipher} {active : ImageReader}
  {before : File} {w w' : CheckpointWriter} {entry : DirectoryEntry} {item : ListedChunk}
  {identities : ChunkIdentities}

/-- The chunk is fetched as what it holds: the bytes written, or those the followed image has. -/
def FetchedAs (hash : List Byte → BitVec 32) (cipher : Option ChunkCipher) (before file : File)
    (entry : DirectoryEntry) (held : Held) : Prop :=
  match held with
  | .written bytes => fetchEntry hash cipher file entry = .ok bytes
  | .reused old => ∀ bytes,
      fetchEntry hash cipher file entry = .ok bytes ↔ fetchEntry hash cipher before old = .ok bytes

/-- The pages of a reused chunk that was left in place are the old ones; those of any other are
none of the image's. -/
def PlacedAs (active : ImageReader) (entry : DirectoryEntry) (held : Held) : Prop :=
  (∃ old, held = .reused old ∧ entry.offset = old.offset ∧ entry.length = old.length) ∨
    ∀ page, entry.run.Has page → ¬Uses active page

/-- The entry is that of the chunk. -/
structure Holds (hash : List Byte → BitVec 32) (cipher : Option ChunkCipher)
    (active : ImageReader) (before : File) (w : CheckpointWriter) (entry : DirectoryEntry)
    (item : ListedChunk) : Prop where
  ok : entry.Ok
  sectionType : entry.sectionType = item.sectionType
  sectionVersion : entry.sectionVersion = item.sectionVersion
  chunk : entry.chunk = item.chunk
  reused : ∀ old, item.held = .reused old →
    old ∈ active.entries ∧ old.sectionType = entry.sectionType ∧ old.chunk = entry.chunk
  inFile : InFile w.file entry.offset entry.length
  placed : entry.length ≠ 0 → entry.run.Placed
  taken : ∀ page, entry.run.Has page → ¬w.pages.Free page
  fetched : FetchedAs hash cipher before w.file entry item.held
  place : PlacedAs active entry item.held

theorem run_count : 0 < entry.run.count ↔ entry.length ≠ 0 := by
  change 0 < PageRun.forBytes entry.length ↔ _
  rw [forBytes_pos]
  omega

theorem filter_run (entry : DirectoryEntry) :
    [entry.run].filter (fun run => decide (0 < run.count)) =
      if entry.length = 0 then [] else [entry.run] := by
  by_cases hzero : entry.length = 0 <;> simp [run_count, hzero]

/-- What is written elsewhere leaves a chunk as it is. -/
theorem Holds.advance (h : Holds hash cipher active before w entry item)
    (hadvance : Advances w w') : Holds hash cipher active before w' entry item := by
  have hread : entry.length ≠ 0 → w'.file.readAt entry.offset entry.length =
      w.file.readAt entry.offset entry.length := by
    intro hne
    obtain ⟨haligned, -, hstop, -⟩ := h.inFile hne
    exact hadvance.untouched.readAt haligned hstop h.taken
  have hfetch : fetchEntry hash cipher w'.file entry = fetchEntry hash cipher w.file entry :=
    fetchEntry_congr hread
  exact { h with
    inFile hne := by
      obtain ⟨haligned, hdata, hstop, hrange⟩ := h.inFile hne
      exact ⟨haligned, hdata, hstop.trans hadvance.untouched.length, hrange⟩
    taken page hhas hfree := h.taken page hhas (hadvance.shrinks page hfree)
    fetched := by
      have hfetched := h.fetched
      unfold FetchedAs at hfetched ⊢
      rw [hfetch]
      exact hfetched }

/-! ### The invariant -/

/-- **The invariant** of a writer that follows `active`, an image of the file `before`. -/
structure Inv (hash : List Byte → BitVec 32) (cipher : Option ChunkCipher)
    (active : ImageReader) (before : File) (w : CheckpointWriter) (items : List ListedChunk) :
    Prop where
  pages : w.pages.Ok
  spares : ∀ page, w.pages.Free page → ¬Uses active page
  file : Untouched (Uses active) before w.file
  follows : w.followed = some active
  previous : ∀ type version, w.current = some (type, version) →
    w.previous = ImageReader.ofSection active type
  begun : ∀ e ∈ w.entries, e.sectionType ∈ w.begun
  current : ∀ type version, w.current = some (type, version) → ∀ e ∈ w.entries,
    e.sectionType = type → e.sectionVersion = version ∧ e.chunk.identity ∈ w.identities.seen
  inBegun : ∀ type version, w.current = some (type, version) → type ∈ w.begun
  sections : w.entries.Pairwise Compatible
  holds : List.Forall₂ (Holds hash cipher active before w) w.entries items
  runs : w.runs = (w.entries.map DirectoryEntry.run).filter fun run => decide (0 < run.count)
  disjoint : w.entries.Pairwise fun a b => a.run.Disjoint b.run

theorem exists_of_forall₂ {α β : Type} {R : α → β → Prop} {l : List α} {l' : List β}
    (h : Forall₂ R l l') {a : α} (ha : a ∈ l) : ∃ b ∈ l', R a b := by
  obtain ⟨hlength, hrel⟩ := forall₂_iff_get.mp h
  obtain ⟨i, hi, rfl⟩ := getElem_of_mem ha
  exact ⟨_, getElem_mem (hlength ▸ hi), hrel i hi _⟩

/-- The identities are no matter of the file. -/
theorem Advances.of_identities (h : Advances { w with identities } w') : Advances w w' :=
  { h with }

theorem Placement.of_identities {offset : Nat} {raw : List Byte}
    (h : Placement { w with identities } w' offset raw) : Placement w w' offset raw :=
  { h with }

/-- The entry has what the chunk says of it, its place apart. -/
structure Describes (active : ImageReader) (entry : DirectoryEntry) (item : ListedChunk) :
    Prop where
  sectionType : entry.sectionType = item.sectionType
  sectionVersion : entry.sectionVersion = item.sectionVersion
  chunk : entry.chunk = item.chunk
  flags : entry.flags = DirectoryEntry.flagsFor entry.sectionType entry.chunk.kind
  reused : ∀ old, item.held = .reused old →
    old ∈ active.entries ∧ old.sectionType = entry.sectionType ∧ old.chunk = entry.chunk

theorem mem_of_ofSection {index : Nat}
    (h : ((ImageReader.ofSection active type).bind fun previous => previous.entries[index]?) =
      some old) : old ∈ active.entries ∧ old.sectionType = type := by
  obtain ⟨chunks, hchunks, hindex⟩ := bind_eq_some_iff.mp h
  obtain ⟨first, -, rfl⟩ := map_eq_some_iff.mp hchunks
  obtain ⟨hmem, htype⟩ := mem_filter.mp (mem_of_getElem? hindex)
  exact ⟨hmem, of_decide_eq_true htype⟩

theorem run_mem_usedRuns (hmem : old ∈ active.entries)
    (hbytes : old.length ≠ 0) : old.run ∈ ImageReader.usedRuns active := by
  refine mem_append_left _ (mem_filter.mpr ⟨mem_append_left _ (mem_map_of_mem hmem), ?_⟩)
  simpa using run_count.mpr hbytes

variable {items : List ListedChunk} (h : Inv hash cipher active before w items)
include h

/-- A call that lists nothing keeps it, whatever identities it used up. -/
theorem Inv.advance (hseen : ∀ id ∈ w.identities.seen, id ∈ identities.seen) (hadvance : Advances w w')
    (hsession : SameSession { w with identities } w') (hruns : w'.runs = w.runs) :
    Inv hash cipher active before w' items := by
  obtain ⟨file, pages, entries, runs, current, followed, previous, relocate, begun, seen⟩ := w'
  obtain ⟨he, hc, hf, hp, hb, hi⟩ := hsession
  dsimp only at he hc hf hp hb hi
  subst he hc hf hp hb hi
  exact { h with
    pages := hadvance.ok
    spares page hfree := h.spares page (hadvance.shrinks page hfree)
    file := h.file.trans (hadvance.untouched.mono fun page huses hfree =>
      h.spares page hfree huses)
    current type version hin e he htype :=
      (h.current type version hin e he htype).imp_right (hseen _)
    holds := h.holds.imp fun _ _ hholds => hholds.advance hadvance
    runs := hruns.trans h.runs }

/-- A call that lists a chunk keeps it. -/
theorem Inv.add {version : Byte} (hcurrent : w.current = some (type, version))
    (hnew : entry.chunk.identity ∉ w.identities.seen) (hadvance : Advances w w')
    (hsession : SameSession { w with identities := ⟨entry.chunk.identity :: w.identities.seen⟩ } w')
    (hruns : w'.runs = w.runs ++ if entry.length = 0 then [] else [entry.run])
    (hholds : Holds hash cipher active before w' entry item) (htype : entry.sectionType = type)
    (hversion : entry.sectionVersion = version)
    (hdisjoint : ∀ e ∈ w.entries, e.run.Disjoint entry.run) :
    Inv hash cipher active before { w' with entries := w'.entries ++ [entry] } (items ++ [item]) := by
  have hkept : Inv hash cipher active before { w' with runs := w.runs } items :=
    h.advance (fun _ hid => mem_cons_of_mem _ hid)
      { hadvance with } { hsession with } rfl
  have hentries : w'.entries = w.entries := hsession.entries
  have hcurrent' : w'.current = some (type, version) := hsession.current.trans hcurrent
  have hlast : ∀ runs, Advances { w' with runs } { w' with entries := w'.entries ++ [entry] } :=
    fun _ => ⟨hadvance.ok, fun _ hfree => hfree, .refl ..⟩
  refine { hkept with
    begun e he := ?_
    current other v hin e he hother := ?_
    sections := pairwise_append.mpr ⟨hkept.sections, pairwise_singleton .., ?_⟩
    holds := rel_append (hkept.holds.imp fun _ _ hold => hold.advance (hlast _))
      (.cons (hholds.advance (hlast _)) .nil)
    runs := ?_
    disjoint := pairwise_append.mpr ⟨hkept.disjoint, pairwise_singleton .., ?_⟩ }
  · obtain he | he := mem_append.mp he
    · exact hkept.begun e he
    · cases mem_singleton.mp he
      exact htype ▸ hkept.inBegun type version hcurrent'
  · obtain he | he := mem_append.mp he
    · exact hkept.current other v hin e he hother
    cases mem_singleton.mp he
    cases hcurrent'.symm.trans hin
    refine ⟨hversion, ?_⟩
    change _ ∈ w'.identities.seen
    rw [hsession.identities]
    exact mem_cons_self
  · intro e he e' he' hsame
    cases mem_singleton.mp he'
    -- Before the call the section had not used the identity up.
    obtain ⟨hold, hid⟩ := h.current type version hcurrent e (hentries ▸ he) (hsame.trans htype)
    exact ⟨hold.trans hversion.symm, fun heq => hnew (heq ▸ hid)⟩
  · change w'.runs = ((w'.entries ++ [entry]).map DirectoryEntry.run).filter _
    rw [hruns, h.runs, hentries, map_append, filter_append, map_singleton, filter_run]
  · intro e he e' he'
    cases mem_singleton.mp he'
    exact hdisjoint e (hentries ▸ he)

/-! ### Calls -/

theorem Inv.beginSection (type : SectionType) (version : Byte) :
    Inv hash cipher active before (w.beginSection type version).2 items := by
  have hadvance : ∀ current previous begun identities,
      Advances w { w with current, previous, begun, identities } :=
    fun _ _ _ _ => ⟨h.pages, fun _ hfree => hfree, .refl ..⟩
  unfold CheckpointWriter.beginSection
  split
  · exact { h with
      previous := nofun
      current := nofun
      inBegun := nofun
      holds := h.holds.imp fun _ _ hholds => hholds.advance (hadvance ..) }
  next hnew =>
    refine { h with
      previous other v hin := ?_
      begun e he := mem_append_left _ (h.begun e he)
      current other v hin e he hother := ?_
      inBegun other v hin := ?_
      holds := h.holds.imp fun _ _ hholds => hholds.advance (hadvance ..) }
    · cases hin
      rw [h.follows]
      rfl
    · cases hin
      exact absurd (hother ▸ h.begun e he) hnew
    · cases hin
      exact mem_append_right _ mem_cons_self

/-- A chunk that was stored in pages that were free is listed. -/
theorem Inv.addPlaced (hcurrent : w.current = some (item.sectionType, item.sectionVersion))
    (hnew : entry.chunk.identity ∉ w.identities.seen) (hadvance : Advances w w')
    (hsession : SameSession { w with identities := ⟨entry.chunk.identity :: w.identities.seen⟩ } w')
    {raw : List Byte} (hplace : Placement w w' entry.offset raw) (hlength : entry.length = raw.length)
    (hitem : Describes active entry item)
    (hfetched : FetchedAs hash cipher before w'.file entry item.held) :
    Inv hash cipher active before { w' with entries := w'.entries ++ [entry] } (items ++ [item]) := by
  have hrun : entry.run = runOf entry.offset raw.length := by rw [DirectoryEntry.run, hlength]
  have hbytes : entry.length ≠ 0 := hlength ▸ hplace.length_ne_zero
  obtain ⟨hdata, hrange⟩ := hplace.placed.bytes hplace.aligned
  refine h.add hcurrent hnew hadvance hsession ?_ ?_ hitem.sectionType
    hitem.sectionVersion fun e he page hhas hin => ?_
  · rw [if_neg hbytes, hplace.runs, hrun]
  · exact { hitem with
        ok := ⟨by omega, by omega, hitem.flags⟩
        inFile _ := ⟨hplace.aligned, hdata, hlength ▸ hplace.stop, hlength ▸ hrange⟩
        placed _ := hrun ▸ hplace.placed
        taken page hhas := hplace.taken page (hrun ▸ hhas)
        fetched := hfetched
        place := .inr fun page hhas => h.spares page (hplace.free page (hrun ▸ hhas)) }
  · obtain ⟨item, -, hholds⟩ := exists_of_forall₂ h.holds he
    exact hholds.taken page hhas (hplace.free page (hrun ▸ hin))

/-- A chunk without bytes is listed without a page. -/
theorem Inv.addEmpty (hcurrent : w.current = some (item.sectionType, item.sectionVersion))
    (hnew : entry.chunk.identity ∉ w.identities.seen) (hlength : entry.length = 0)
    (hoffset : entry.offset < 2 ^ 64) (hitem : Describes active entry item)
    (hfetched : FetchedAs hash cipher before w.file entry item.held) :
    Inv hash cipher active before { w with
      identities := ⟨entry.chunk.identity :: w.identities.seen⟩
      entries := w.entries ++ [entry] } (items ++ [item]) := by
  have hnone : ∀ page, ¬entry.run.Has page := by
    intro page hhas
    have hcount : ¬0 < entry.run.count := by
      rw [run_count, hlength]
      exact fun h => h rfl
    obtain ⟨hle, hlt⟩ := hhas
    omega
  have hadvance : Advances w { w with
      identities := ⟨entry.chunk.identity :: w.identities.seen⟩ } :=
    ⟨h.pages, fun _ hfree => hfree, .refl ..⟩
  refine h.add hcurrent hnew hadvance (.set ..) ?_ ?_ hitem.sectionType
    hitem.sectionVersion fun e he page _ hin => hnone page hin
  · rw [if_pos hlength, append_nil]
  exact { hitem with
      ok := ⟨hoffset, by rw [hlength]; exact Nat.two_pow_pos 64, hitem.flags⟩
      inFile hne := absurd hlength hne
      placed hne := absurd hlength hne
      taken page hhas := absurd hhas (hnone page)
      fetched := hfetched
      place := .inr fun page hhas => absurd hhas (hnone page) }

/-- **A written chunk is listed**, or refused. -/
theorem Inv.writeChunk {chunk : ChunkMeta} {bytes : List Byte} {outcome : Outcome}
    (hcall : w.writeChunk hash cipher chunk bytes outcome = (result, w')) : match result with
    | .error _ => Inv hash cipher active before w' items
    | .ok () => ∃ sectionType sectionVersion, w.current = some (sectionType, sectionVersion) ∧
        Inv hash cipher active before w'
          (items ++ [{ sectionType, sectionVersion, chunk, held := .written bytes }]) := by
  unfold CheckpointWriter.writeChunk at hcall
  split at hcall
  · cases hcall
    exact h
  rename_i type version hcurrent
  split at hcall
  · cases hcall
    exact h
  rename_i identities hinsert
  obtain ⟨hnew, rfl⟩ := ChunkIdentities.insert_eq_ok.mp hinsert
  split at hcall
  next error w₁ hstore =>
    cases hcall
    obtain ⟨hadvance, hsession, hruns⟩ := store_spec hstore h.pages
    exact h.advance (fun id hid => mem_cons_of_mem _ hid) hadvance.of_identities hsession hruns
  rename_i stored w₁ hstore
  cases hcall
  obtain ⟨hadvance, hsession, hstored⟩ := store_spec hstore h.pages
  have hadvance := hadvance.of_identities
  refine ⟨type, version, hcurrent, ?_⟩
  obtain ⟨rfl, rfl, rfl⟩ | ⟨raw, hplace, hlength, hcrc, hdecrypt⟩ := hstored
  · exact h.addEmpty hcurrent hnew rfl (Nat.two_pow_pos 64) ⟨rfl, rfl, rfl, rfl, nofun⟩ rfl
  have hplace := hplace.of_identities
  have hbytes : stored.length ≠ 0 := hlength ▸ hplace.length_ne_zero
  refine h.addPlaced hcurrent hnew hadvance hsession hplace hlength
    ⟨rfl, rfl, rfl, rfl, fun _ hold => (nomatch hold)⟩ ?_
  refine (fetchEntry_of_stored (storedBytes_eq_ok.mpr ⟨?_, hcrc.symm⟩) hbytes).mpr hdecrypt
  exact hlength ▸ hplace.read

variable (hactive : ImageOk before active)
include hactive

/-- A chunk of the followed image is read as it was. -/
theorem Inv.readAt_old (hmem : old ∈ active.entries) (hbytes : old.length ≠ 0) :
    w.file.readAt old.offset old.length = before.readAt old.offset old.length := by
  obtain ⟨haligned, -, hstop, -⟩ := hactive.entries old hmem hbytes
  exact h.file.readAt haligned hstop fun page hhas => ⟨old.run, run_mem_usedRuns hmem hbytes, hhas⟩

/-- A chunk of the followed image is left in its place, which no other chunk listed has. -/
theorem Inv.disjoint_old {version : Byte}
    (hcurrent : w.current = some (old.sectionType, version)) (hmem : old ∈ active.entries)
    (hbytes : old.length ≠ 0) (hnew : old.chunk.identity ∉ w.identities.seen) :
    ∀ e ∈ w.entries, e.run.Disjoint old.run := by
  intro e he
  obtain ⟨item, -, hholds⟩ := exists_of_forall₂ h.holds he
  obtain ⟨other, hheld, hoffset, hlength⟩ | hfresh := hholds.place
  · obtain ⟨hother, htype, hchunk⟩ := hholds.reused other hheld
    have hrun : e.run = other.run := by
      rw [DirectoryEntry.run, DirectoryEntry.run, hoffset, hlength]
    rw [hrun]
    refine hactive.disjoint_entries hother hmem fun heq => ?_
    -- The section has used the identity up.
    subst heq
    obtain ⟨-, hid⟩ := h.current _ version hcurrent e he htype.symm
    exact hnew (hchunk ▸ hid)
  · exact fun page hhas hin => hfresh page hhas ⟨old.run, run_mem_usedRuns hmem hbytes, hin⟩

variable (hlt : ∀ old ∈ active.entries, old.offset < 2 ^ 64)
include hlt

/-- **A reused chunk is listed**, or refused. -/
theorem Inv.reuseChunk {index : Nat} {outcome : Outcome}
    (hcall : w.reuseChunk hash index outcome = (result, w')) : match result with
    | .error _ => Inv hash cipher active before w' items
    | .ok () => ∃ sectionType sectionVersion old, w.current = some (sectionType, sectionVersion) ∧
        (w.previous.bind fun previous => previous.entries[index]?) = some old ∧
        Inv hash cipher active before w' (items ++
          [{ sectionType, sectionVersion, chunk := old.chunk, held := .reused old }]) := by
  unfold CheckpointWriter.reuseChunk at hcall
  split at hcall
  · cases hcall
    exact h
  rename_i type version hcurrent
  split at hcall
  · cases hcall
    exact h
  rename_i old hold
  split at hcall
  · cases hcall
    exact h
  rename_i hversion
  have hversion : old.sectionVersion = version := Decidable.of_not_not hversion
  split at hcall
  · cases hcall
    exact h
  rename_i identities hinsert
  obtain ⟨hnew, rfl⟩ := ChunkIdentities.insert_eq_ok.mp hinsert
  -- The chunk is one of the followed image's section.
  obtain ⟨hmem, rfl⟩ : old ∈ active.entries ∧ old.sectionType = type :=
    mem_of_ofSection (h.previous type version hcurrent ▸ hold)
  split at hcall
  next error w₁ hplace =>
    cases hcall
    obtain ⟨hadvance, hsession, hruns⟩ := placeReused_spec hplace h.pages
    exact h.advance (fun id hid => mem_cons_of_mem _ hid) hadvance.of_identities hsession hruns
  rename_i offset w₁ hplace
  cases hcall
  obtain ⟨hadvance, hsession, hplaced⟩ := placeReused_spec hplace h.pages
  have hadvance := hadvance.of_identities
  refine ⟨old.sectionType, version, old, hcurrent, hold, ?_⟩
  have hreused : ∀ other, Held.reused old = .reused other →
      other ∈ active.entries ∧ other.sectionType = old.sectionType ∧ other.chunk = old.chunk := by
    intro other hother
    cases hother
    exact ⟨hmem, rfl, rfl⟩
  obtain ⟨hzero, rfl, rfl⟩ | ⟨hbytes, rfl, rfl⟩ | ⟨raw, hplace, hlength, hstored⟩ := hplaced
  · refine h.addEmpty hcurrent hnew hzero (hlt old hmem) ⟨rfl, hversion, rfl, rfl, hreused⟩
      fun bytes => ?_
    unfold fetchEntry
    rw [if_pos hzero, if_pos hzero]
  · have hfetch : fetchEntry hash cipher w.file old = fetchEntry hash cipher before old :=
      fetchEntry_congr fun _ => h.readAt_old hactive hmem hbytes
    have hdisjoint := h.disjoint_old hactive hcurrent hmem hbytes hnew
    obtain ⟨haligned, hdata, hstop, hrange⟩ := hactive.entries old hmem hbytes
    refine h.add hcurrent hnew hadvance hsession ?_ ?_ rfl hversion hdisjoint
    · rw [if_neg hbytes]
      rfl
    exact
      { ok := ⟨hlt old hmem, by dsimp only; omega, rfl⟩
        sectionType := rfl
        sectionVersion := hversion
        chunk := rfl
        reused := hreused
        inFile _ := ⟨haligned, hdata, hstop.trans h.file.length, hrange⟩
        placed _ := hactive.placed old.run (run_mem_usedRuns hmem hbytes)
          (run_count.mpr hbytes)
        taken page hhas hfree :=
          h.spares page hfree ⟨old.run, run_mem_usedRuns hmem hbytes, hhas⟩
        fetched bytes := by
          rw [← hfetch]
          rfl
        place := .inl ⟨old, rfl, rfl, rfl⟩ }
  · have hplace := hplace.of_identities
    have hbytes : old.length ≠ 0 := hlength ▸ hplace.length_ne_zero
    obtain ⟨hread, hcrc⟩ := storedBytes_eq_ok.mp hstored
    refine h.addPlaced hcurrent hnew hadvance hsession hplace hlength
      ⟨rfl, hversion, rfl, rfl, hreused⟩ fun bytes => ?_
    -- Both are the same stored bytes, decrypted.
    have hold : storedBytes hash before old = .ok raw :=
      storedBytes_eq_ok.mpr ⟨(h.readAt_old hactive hmem hbytes).symm.trans hread, hcrc⟩
    have hmoved : storedBytes hash w₁.file { old with
        flags := flagsFor old.sectionType old.chunk.kind
        offset } = .ok raw :=
      storedBytes_eq_ok.mpr ⟨hlength ▸ hplace.read, hcrc⟩
    exact (fetchEntry_of_stored hmoved hbytes).trans (fetchEntry_of_stored hold hbytes).symm

/-- **Every call keeps the invariant**, with the chunk it lists. -/
theorem Inv.call (c : Call) :
    Inv hash cipher active before (w.call hash cipher c).2
      (items ++ (w.lists hash cipher c).toList) := by
  cases c with
  | beginSection type version =>
    have hnone : w.lists hash cipher (.beginSection type version) = none := by
      unfold lists
      split <;> rfl
    rw [hnone, toList_none, append_nil]
    exact h.beginSection type version
  | writeChunk chunk bytes outcome =>
    obtain ⟨⟨result, w'⟩, hcall⟩ : ∃ p, w.writeChunk hash cipher chunk bytes outcome = p := ⟨_, rfl⟩
    have hkeeps := h.writeChunk hcall
    unfold lists
    simp only [CheckpointWriter.call, hcall]
    cases result with
    | error error => simpa using hkeeps
    | ok _ =>
      obtain ⟨type, version, hcurrent, hkeeps⟩ := hkeeps
      rw [hcurrent]
      exact hkeeps
  | reuseChunk index outcome =>
    obtain ⟨⟨result, w'⟩, hcall⟩ : ∃ p, w.reuseChunk hash index outcome = p := ⟨_, rfl⟩
    have hkeeps := h.reuseChunk hactive hlt hcall
    unfold lists
    simp only [CheckpointWriter.call, hcall]
    cases result with
    | error error => simpa using hkeeps
    | ok _ =>
      obtain ⟨type, version, old, hcurrent, hold, hkeeps⟩ := hkeeps
      rw [hcurrent, hold]
      exact hkeeps

/-- **Every sequence of calls keeps the invariant**, with the chunks it lists. -/
theorem Inv.calls (calls : List Call) :
    Inv hash cipher active before (w.calls hash cipher calls)
      (items ++ w.listed hash cipher calls) := by
  induction calls generalizing w items with
  | nil =>
    rw [listed, append_nil]
    exact h
  | cons c calls ih =>
    rw [listed, ← append_assoc]
    exact ih (h.call hactive hlt c)

end CheckpointWriter

end Grafeo.Storage
