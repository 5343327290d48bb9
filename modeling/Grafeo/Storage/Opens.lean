import Grafeo.Storage.Checkpoint
import Mathlib.Data.List.Pairwise

/-!
# Grafeo.Storage.Opens

**Pages and bytes.** A write into the pages of a run leaves the bytes of every other page
as they are (`Untouched.put`), so what is stored in other pages is read as before
(`Untouched.readAt`), and what was written is read back (`readAt_put`).

**When an image opens** (`open_eq_ok`): its directory decodes, the chunks of each section
carry one version and no identity twice, every chunk with bytes lies in the file, and no
page is used twice.
-/

namespace Grafeo.Storage

open Common Lib

/-! ### Runs of bytes -/

theorem le_forBytes (length : Nat) : length ≤ PageRun.forBytes length * pageSize := by
  unfold PageRun.forBytes pageSize
  omega

theorem forBytes_pos : 0 < PageRun.forBytes length ↔ 0 < length := by
  unfold PageRun.forBytes pageSize
  omega

theorem offset_eq_ok {run : PageRun} (h : run.Placed) : run.offset = .ok (run.first * pageSize) := by
  have hlt : run.first * pageSize < 2 ^ 64 :=
    (Nat.mul_le_mul_right _ (Nat.le_add_right ..)).trans_lt h.range
  rw [PageRun.offset, checked, if_pos hlt]

/-- The pages at the start of a run are the run. -/
theorem runOf_mul (first length : Nat) :
    runOf (first * pageSize) length = { first, count := PageRun.forBytes length } := by
  rw [runOf, Nat.mul_div_cancel _ (by decide)]

/-- The page of a byte stored at a page start. -/
theorem has_of_byte {offset length i : Nat} (haligned : offset % pageSize = 0) (hle : offset ≤ i)
    (hlt : i < offset + length) : (runOf offset length).Has (i / pageSize) := by
  unfold runOf PageRun.Has InGap PageRun.forBytes pageSize at *
  dsimp only
  omega

/-- Bytes at the start of a placed run lie in the data area and the file offset range. -/
theorem PageRun.Placed.bytes {offset length : Nat} (h : (runOf offset length).Placed)
    (haligned : offset % pageSize = 0) :
    dataStartPage * pageSize ≤ offset ∧ offset + length < 2 ^ 64 := by
  obtain ⟨hdata, hrange⟩ := h
  have hbytes := le_forBytes length
  unfold runOf at hdata hrange
  unfold pageSize at *
  dsimp only at hdata hrange
  omega

/-- A run without pages shares none. -/
theorem disjoint_of_count {a b : PageRun} (h : a.count = 0) : a.Disjoint b := by
  intro page hhas
  obtain ⟨hle, hlt⟩ := hhas
  omega

/-! ### Files -/

namespace File

variable {file : File} {offset : Nat} {bytes : List Byte} {length : Nat} {entry : DirectoryEntry}
  {cipher : Option ChunkCipher}

@[simp] theorem length_bytesAt (file : File) (offset length : Nat) :
    (file.bytesAt offset length).length = length := by
  simp [bytesAt]

theorem bytesAt_put : (file.put offset bytes).bytesAt offset bytes.length = bytes := by
  refine List.ext_getElem (by simp) fun i hi hi' => ?_
  simp only [bytesAt, List.getElem_map, List.getElem_range, put]
  rw [if_pos ⟨Nat.le_add_right .., by omega⟩, Nat.add_sub_cancel_left,
    List.getD_eq_getElem?_getD, List.getElem?_eq_getElem hi', Option.getD_some]

theorem add_length_le_put (file : File) (offset : Nat) (hne : bytes ≠ []) :
    offset + bytes.length ≤ (file.put offset bytes).length := by
  unfold put
  rw [if_neg (by simpa using hne)]
  exact le_max_right ..

/-- What was written is read back. -/
theorem readAt_put (file : File) (offset : Nat) (hne : bytes ≠ []) :
    (file.put offset bytes).readAt offset bytes.length = .ok bytes := by
  rw [readAt, if_pos (.inr (add_length_le_put file offset hne)), bytesAt_put]

theorem length_of_readAt (h : file.readAt offset length = .ok bytes) : bytes.length = length := by
  unfold readAt at h
  split at h <;> cases h
  exact length_bytesAt file offset length

end File

/-- The bytes of the pages to `keep` are as they were, and none was cut off. -/
structure Untouched (keep : Nat → Prop) (file file' : File) : Prop where
  length : file.length ≤ file'.length
  byte : ∀ i, i < file.length → keep (i / pageSize) → file'.byte i = file.byte i

namespace Untouched

variable {keep keep' : Nat → Prop} {file file' file'' : File}

theorem refl (keep : Nat → Prop) (file : File) : Untouched keep file file :=
  ⟨le_rfl, fun _ _ _ => rfl⟩

theorem trans (h : Untouched keep file file') (h' : Untouched keep file' file'') :
    Untouched keep file file'' :=
  ⟨h.length.trans h'.length, fun i hi hkeep =>
    (h'.byte i (hi.trans_le h.length) hkeep).trans (h.byte i hi hkeep)⟩

theorem mono (h : Untouched keep file file') (hkeep : ∀ page, keep' page → keep page) :
    Untouched keep' file file' :=
  ⟨h.length, fun i hi hin => h.byte i hi (hkeep _ hin)⟩

/-- Bytes that fit a run are written into its pages. -/
theorem put (file : File) {run : PageRun} {bytes : List Byte}
    (hfits : bytes.length ≤ run.count * pageSize) :
    Untouched (fun page => ¬run.Has page) file (file.put (run.first * pageSize) bytes) := by
  unfold File.put
  refine ⟨by dsimp only; split <;> simp, fun i hi hnot => ?_⟩
  dsimp only
  rw [if_neg, if_pos hi]
  rintro ⟨hle, hlt⟩
  refine hnot ⟨?_, ?_⟩ <;> (unfold pageSize at *; dsimp only; omega)

/-- What is stored in pages that are kept is read as before. -/
theorem readAt (h : Untouched keep file file') {offset length : Nat}
    (haligned : offset % pageSize = 0) (hstop : offset + length ≤ file.length)
    (hkeep : ∀ page, (runOf offset length).Has page → keep page) :
    file'.readAt offset length = file.readAt offset length := by
  rw [File.readAt, File.readAt, if_pos (.inr (hstop.trans h.length)), if_pos (.inr hstop)]
  refine congrArg _ (List.map_congr_left fun i hi => ?_)
  have hlt : offset + i < offset + length := Nat.add_lt_add_left (List.mem_range.mp hi) _
  exact h.byte _ (hlt.trans_le hstop) (hkeep _ (has_of_byte haligned (by omega) hlt))

end Untouched

theorem storedBytes_eq_ok {hash : List Byte → BitVec 32} {file : File} {raw : List Byte} :
    storedBytes hash file entry = .ok raw ↔
      file.readAt entry.offset entry.length = .ok raw ∧ hash raw = entry.crc := by
  unfold storedBytes
  rw [bind_eq_ok]
  constructor
  · rintro ⟨stored, hread, hstored⟩
    split at hstored <;> cases hstored
    rename_i hcrc
    exact ⟨hread, Decidable.of_not_not hcrc⟩
  · rintro ⟨hread, hcrc⟩
    refine ⟨raw, hread, ?_⟩
    rw [if_neg (by simpa using hcrc)]
    rfl

/-- A chunk is fetched from its own bytes. -/
theorem fetchEntry_congr {hash : List Byte → BitVec 32} {file file' : File} (h : entry.length ≠ 0 →
      file'.readAt entry.offset entry.length = file.readAt entry.offset entry.length) :
    fetchEntry hash cipher file' entry = fetchEntry hash cipher file entry := by
  unfold fetchEntry storedBytes
  split
  · rfl
  · rw [h ‹_›]

/-- What is fetched of a chunk with bytes: its stored bytes, decrypted. -/
theorem fetchEntry_of_stored {hash : List Byte → BitVec 32} {file : File} {raw bytes : List Byte}
    (hstored : storedBytes hash file entry = .ok raw) (h : entry.length ≠ 0) :
    fetchEntry hash cipher file entry = .ok bytes ↔
      decryptWith cipher raw (chunkAad entry.sectionType entry.chunk) = .ok bytes := by
  unfold fetchEntry
  rw [if_neg h, hstored]
  change Except.mapError _ _ = _ ↔ _
  cases decryptWith cipher raw (chunkAad entry.sectionType entry.chunk) <;> simp [Except.mapError]

open List Option Function

/-! ### Sections -/

/-- Two chunks of one section have one version and different identities. -/
def Compatible (a b : DirectoryEntry) : Prop :=
  a.sectionType = b.sectionType →
    a.sectionVersion = b.sectionVersion ∧ a.chunk.identity ≠ b.chunk.identity

/-- What the table says of the section of `entry`. -/
def rowOf (sections : SectionTable) (entry : DirectoryEntry) : Byte × ChunkIdentities :=
  (sections entry.sectionType).getD (entry.sectionVersion, {})

theorem checkSection_eq_ok {sections sections' : SectionTable} {entry : DirectoryEntry} :
    checkSection sections entry = .ok sections' ↔ (entry.sectionVersion = (rowOf sections entry).1 ∧
        entry.chunk.identity ∉ (rowOf sections entry).2.seen) ∧
      sections' = update sections entry.sectionType
        (some (entry.sectionVersion, ⟨entry.chunk.identity :: (rowOf sections entry).2.seen⟩)) := by
  unfold checkSection rowOf
  generalize (sections entry.sectionType).getD (entry.sectionVersion, {}) = row
  obtain ⟨version, seen⟩ := row
  dsimp only
  split
  next hne => exact ⟨nofun, fun h => absurd h.1.1 hne⟩
  rename_i hversion
  have hversion : entry.sectionVersion = version := Decidable.of_not_not hversion
  split
  next message herror =>
    refine ⟨nofun, fun h => ?_⟩
    rw [ChunkIdentities.insert_eq_ok.mpr ⟨h.1.2, rfl⟩] at herror
    cases herror
  next other _ herror =>
    refine ⟨nofun, fun h => ?_⟩
    rw [ChunkIdentities.insert_eq_ok.mpr ⟨h.1.2, rfl⟩] at herror
    cases herror
  rename_i identities hinsert
  obtain ⟨hnew, rfl⟩ := ChunkIdentities.insert_eq_ok.mp hinsert
  rw [← hversion]
  constructor
  · intro h
    cases h
    exact ⟨⟨rfl, hnew⟩, rfl⟩
  · intro h
    rw [h.2]

/-- The table of the sections of the entries met so far. -/
structure Tells (sections : SectionTable) (met : List DirectoryEntry) : Prop where
  absent : ∀ type, sections type = none → ∀ entry ∈ met, entry.sectionType ≠ type
  version : ∀ type version identities, sections type = some (version, identities) →
    (∃ entry ∈ met, entry.sectionType = type) ∧
      ∀ entry ∈ met, entry.sectionType = type → entry.sectionVersion = version
  identity : ∀ type version identities, sections type = some (version, identities) →
    ∀ id, id ∈ identities.seen ↔ ∃ entry ∈ met, entry.sectionType = type ∧ entry.chunk.identity = id

namespace Tells

variable {sections sections' : SectionTable} {met : List DirectoryEntry}

theorem nil : Tells (fun _ => none) [] :=
  ⟨fun _ _ _ hin => (nomatch hin), nofun, nofun⟩

/-- What the table says of a section is what the entries met of it say. -/
theorem rowOf (h : Tells sections met) (entry : DirectoryEntry) :
    (∀ old ∈ met, old.sectionType = entry.sectionType →
      old.sectionVersion = (Storage.rowOf sections entry).1) ∧
    ((Storage.rowOf sections entry).1 = entry.sectionVersion ∨
      ∃ old ∈ met, old.sectionType = entry.sectionType) ∧
    ∀ id, id ∈ (Storage.rowOf sections entry).2.seen ↔
      ∃ old ∈ met, old.sectionType = entry.sectionType ∧ old.chunk.identity = id := by
  unfold Storage.rowOf
  cases hrow : sections entry.sectionType with
  | none =>
    have habsent := h.absent _ hrow
    refine ⟨fun old hold htype => absurd htype (habsent old hold), .inl rfl, fun id => ?_⟩
    refine ⟨nofun, fun ⟨old, hold, htype, _⟩ => ?_⟩
    exact absurd htype (habsent old hold)
  | some row =>
    obtain ⟨hsome, hall⟩ := h.version _ row.1 row.2 hrow
    exact ⟨hall, .inr hsome, h.identity _ row.1 row.2 hrow⟩

/-- **One more entry passes** just if it is compatible with those before it. -/
theorem checkSection_iff (h : Tells sections met) (entry : DirectoryEntry) :
    (∃ sections', checkSection sections entry = .ok sections') ↔
      ∀ old ∈ met, Compatible old entry := by
  obtain ⟨hversion, hsome, hidentity⟩ := h.rowOf entry
  constructor
  · rintro ⟨sections', hcheck⟩ old hold htype
    obtain ⟨⟨heq, hnew⟩, -⟩ := checkSection_eq_ok.mp hcheck
    refine ⟨(hversion old hold htype).trans heq.symm, fun hid => hnew ?_⟩
    exact (hidentity _).mpr ⟨old, hold, htype, hid⟩
  intro hall
  refine ⟨_, checkSection_eq_ok.mpr ⟨⟨?_, fun hin => ?_⟩, rfl⟩⟩
  · obtain heq | ⟨old, hold, htype⟩ := hsome
    · exact heq.symm
    · exact (hall old hold htype).1.symm.trans (hversion old hold htype)
  · obtain ⟨old, hold, htype, hid⟩ := (hidentity _).mp hin
    exact (hall old hold htype).2 hid

theorem checkSection (h : Tells sections met) {entry : DirectoryEntry}
    (hcheck : checkSection sections entry = .ok sections') : Tells sections' (met ++ [entry]) := by
  obtain ⟨⟨heq, -⟩, rfl⟩ := checkSection_eq_ok.mp hcheck
  obtain ⟨hversion, -, hidentity⟩ := h.rowOf entry
  have hmem : ∀ e, e ∈ met ++ [entry] ↔ e ∈ met ∨ e = entry := by simp
  refine ⟨fun type hnone e he => ?_, fun type version identities hrow => ?_,
    fun type version identities hrow id => ?_⟩
  · by_cases htype : type = entry.sectionType
    · subst htype
      rw [update_self] at hnone
      cases hnone
    · rw [update_of_ne htype] at hnone
      obtain he | rfl := (hmem e).mp he
      · exact h.absent type hnone e he
      · exact Ne.symm htype
  · by_cases htype : type = entry.sectionType
    · subst htype
      rw [update_self] at hrow
      cases hrow
      refine ⟨⟨entry, (hmem _).mpr (.inr rfl), rfl⟩, fun e he hsame => ?_⟩
      obtain he | rfl := (hmem e).mp he
      · exact (hversion e he hsame).trans heq.symm
      · rfl
    · rw [update_of_ne htype] at hrow
      obtain ⟨⟨e, he, hsame⟩, hall⟩ := h.version type version identities hrow
      refine ⟨⟨e, (hmem e).mpr (.inl he), hsame⟩, fun e he hsame => ?_⟩
      obtain he | rfl := (hmem e).mp he
      · exact hall e he hsame
      · exact absurd hsame.symm htype
  · by_cases htype : type = entry.sectionType
    · subst htype
      rw [update_self] at hrow
      cases hrow
      rw [mem_cons, hidentity]
      constructor
      · rintro (rfl | ⟨old, hold, hsame, hid⟩)
        · exact ⟨entry, (hmem _).mpr (.inr rfl), rfl, rfl⟩
        · exact ⟨old, (hmem _).mpr (.inl hold), hsame, hid⟩
      · rintro ⟨e, he, hsame, hid⟩
        obtain he | rfl := (hmem e).mp he
        · exact .inr ⟨e, he, hsame, hid⟩
        · exact .inl hid.symm
    · rw [update_of_ne htype] at hrow
      rw [h.identity type version identities hrow]
      constructor
      · rintro ⟨old, hold, hsame, hid⟩
        exact ⟨old, (hmem _).mpr (.inl hold), hsame, hid⟩
      · rintro ⟨e, he, hsame, hid⟩
        obtain he | rfl := (hmem e).mp he
        · exact ⟨e, he, hsame, hid⟩
        · exact absurd hsame.symm htype

end Tells

/-- **The sections pass** just if their chunks are compatible. -/
theorem checkSections_eq_ok {entries : List DirectoryEntry} :
    checkSections entries = .ok () ↔ entries.Pairwise Compatible := by
  have hfold : ∀ (rest met : List DirectoryEntry) (sections : SectionTable), Tells sections met →
      ((∃ sections', rest.foldlM checkSection sections = .ok sections') ↔
        (∀ old ∈ met, ∀ entry ∈ rest, Compatible old entry) ∧ rest.Pairwise Compatible) := by
    intro rest
    induction rest with
    | nil => exact fun met sections _ => ⟨fun _ => ⟨by simp, .nil⟩, fun _ => ⟨_, rfl⟩⟩
    | cons entry rest ih =>
      intro met sections htells
      constructor
      · rintro ⟨sections', hfold⟩
        obtain ⟨next, hcheck, hrest⟩ := bind_eq_ok.mp hfold
        obtain ⟨hold, hpairs⟩ := (ih _ next (htells.checkSection hcheck)).mp ⟨_, hrest⟩
        have hentry := (htells.checkSection_iff entry).mp ⟨next, hcheck⟩
        refine ⟨fun old hmem e he => ?_, pairwise_cons.mpr ⟨?_, hpairs⟩⟩
        · obtain rfl | he := mem_cons.mp he
          · exact hentry old hmem
          · exact hold old (mem_append_left _ hmem) e he
        · exact hold entry (mem_append_right _ mem_cons_self)
      · rintro ⟨hold, hpairs⟩
        obtain ⟨hfirst, hpairs⟩ := pairwise_cons.mp hpairs
        obtain ⟨next, hcheck⟩ := (htells.checkSection_iff entry).mpr
          fun old hmem => hold old hmem entry mem_cons_self
        have hmet : ∀ old ∈ met ++ [entry], ∀ e ∈ rest, Compatible old e :=
          forall_mem_append.mpr ⟨fun old hmem e he => hold old hmem e (mem_cons_of_mem _ he),
            forall_mem_singleton.mpr hfirst⟩
        obtain ⟨sections', hrest⟩ :=
          (ih _ next (htells.checkSection hcheck)).mpr ⟨hmet, hpairs⟩
        exact ⟨sections', bind_eq_ok.mpr ⟨next, hcheck, hrest⟩⟩
  have hall := hfold entries [] (fun _ => none) Tells.nil
  simp only [not_mem_nil, false_implies, implies_true, true_and] at hall
  rw [← hall, checkSections]
  cases entries.foldlM checkSection fun _ => none <;> simp [Except.map]

/-! ### Images -/

/-- The bytes lie in the file, from a page start of the data area on. -/
def InFile (file : File) (offset length : Nat) : Prop :=
  length ≠ 0 → offset % pageSize = 0 ∧ dataStartPage * pageSize ≤ offset ∧
    offset + length ≤ file.length ∧ offset + length < 2 ^ 64

theorem checkPlacement_eq_ok {what : String} {offset length : Nat} {file : File} :
    checkPlacement what offset length file.length = .ok () ↔ InFile file offset length := by
  unfold checkPlacement
  split
  next hzero => exact iff_of_true rfl fun hne => absurd hzero hne
  rename_i hne
  split
  next hbad =>
    refine ⟨nofun, fun h => ?_⟩
    obtain ⟨haligned, hdata, hstop, hrange⟩ := h hne
    rw [checked, if_pos hrange] at hbad
    simp only [all_some, decide_eq_true_eq] at hbad
    omega
  next hgood =>
    refine iff_of_true rfl fun _ => ?_
    rw [not_or, not_or, Decidable.not_not] at hgood
    obtain ⟨haligned, hdata, hstop⟩ := hgood
    unfold checked at hstop
    split at hstop
    next hrange =>
      simp only [all_some, decide_eq_true_eq] at hstop
      exact ⟨haligned, le_of_not_gt hdata, le_of_not_gt hstop, hrange⟩
    · exact absurd rfl hstop

theorem forM_eq_ok {α : Type} {l : List α} {check : α → Except Error Unit} :
    l.forM check = .ok () ↔ ∀ a ∈ l, check a = .ok () := by
  induction l with
  | nil => exact iff_of_true rfl (by simp)
  | cons a l ih =>
    change (check a >>= fun _ => l.forM check) = .ok () ↔ _
    rw [bind_eq_ok, forall_mem_cons, ← ih]
    exact ⟨fun ⟨_, h⟩ => h, fun h => ⟨(), h⟩⟩

/-- What is checked of the image a directory lists. -/
structure ImageOk (file : File) (image : ImageReader) : Prop where
  sections : image.entries.Pairwise Compatible
  entries : ∀ entry ∈ image.entries, InFile file entry.offset entry.length
  skipped : ∀ entry ∈ image.skipped, InFile file entry.offset entry.length
  placed : ∀ run ∈ ImageReader.usedRuns image, 0 < run.count → run.Placed
  disjoint : ((ImageReader.usedRuns image).filter fun run => decide (0 < run.count)).Pairwise
    PageRun.Disjoint

variable {hash : List Byte → BitVec 32} {cipher : Option ChunkCipher} {file : File}
  {root : BlockRef} {image : ImageReader}

/-- Two chunks of an image share no page. -/
theorem ImageOk.disjoint_entries (h : ImageOk file image) {a b : DirectoryEntry}
    (ha : a ∈ image.entries) (hb : b ∈ image.entries) (hne : a ≠ b) : a.run.Disjoint b.run := by
  by_cases hcounts : 0 < a.run.count ∧ 0 < b.run.count
  · have hsub : ((image.entries.filter fun e => decide (0 < e.run.count)).map
        DirectoryEntry.run).Sublist
          ((ImageReader.usedRuns image).filter fun run => decide (0 < run.count)) := by
      unfold ImageReader.usedRuns
      rw [filter_append, filter_append, filter_append, List.filter_filter,
        List.filter_map, append_assoc]
      simp only [Bool.and_self]
      exact sublist_append_left ..
    have hpairs := pairwise_map.mp (h.disjoint.sublist hsub)
    have : Std.Symm fun x y : DirectoryEntry => x.run.Disjoint y.run := ⟨fun _ _ hxy => hxy.symm⟩
    refine hpairs.forall ?_ ?_ hne
    · exact mem_filter.mpr ⟨ha, by simpa using hcounts.1⟩
    · exact mem_filter.mpr ⟨hb, by simpa using hcounts.2⟩
  · obtain hzero | hzero : a.run.count = 0 ∨ b.run.count = 0 := by omega
    · exact disjoint_of_count hzero
    · exact (disjoint_of_count hzero).symm

/-- **An image opens** just if its directory decodes and lists what passes the checks. -/
theorem open_eq_ok : ImageReader.open hash cipher file root = .ok image ↔
    decodeChain hash (storedExtra cipher) (readBlock cipher file root) root = .ok image ∧
      ImageOk file image := by
  constructor
  · intro h
    obtain ⟨listed, hdecode, h⟩ := bind_eq_ok.mp h
    obtain ⟨_, hsections, h⟩ := bind_eq_ok.mp h
    obtain ⟨_, hentries, h⟩ := bind_eq_ok.mp h
    obtain ⟨_, hskipped, h⟩ := bind_eq_ok.mp h
    obtain ⟨pages, hpages, h⟩ := bind_eq_ok.mp h
    cases h
    obtain ⟨pages', hused⟩ : ∃ pages, PageAllocator.fromUsed (ImageReader.usedRuns image) =
        .ok pages := by
      cases hused : PageAllocator.fromUsed (ImageReader.usedRuns image) with
      | ok pages => exact ⟨pages, rfl⟩
      | error error =>
        rw [hused] at hpages
        cases hpages
    obtain ⟨-, hdisjoint, hplaced, -⟩ := PageAllocator.fromUsed_spec hused
    exact ⟨hdecode, {
      sections := checkSections_eq_ok.mp hsections
      entries entry hin := checkPlacement_eq_ok.mp (forM_eq_ok.mp hentries entry hin)
      skipped entry hin := checkPlacement_eq_ok.mp (forM_eq_ok.mp hskipped entry hin)
      placed := hplaced
      disjoint := hdisjoint }⟩
  · rintro ⟨hdecode, hok⟩
    obtain ⟨pages, hused⟩ := PageAllocator.fromUsed_ok hok.placed hok.disjoint
    refine bind_eq_ok.mpr ⟨image, hdecode, bind_eq_ok.mpr
      ⟨(), checkSections_eq_ok.mpr hok.sections, bind_eq_ok.mpr
      ⟨(), forM_eq_ok.mpr fun entry hin => checkPlacement_eq_ok.mpr (hok.entries entry hin),
        bind_eq_ok.mpr
      ⟨(), forM_eq_ok.mpr fun entry hin => checkPlacement_eq_ok.mpr (hok.skipped entry hin),
        bind_eq_ok.mpr ⟨pages, ?_, rfl⟩⟩⟩⟩⟩
    rw [hused]
    rfl

end Grafeo.Storage
