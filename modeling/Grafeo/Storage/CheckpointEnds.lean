import Grafeo.Storage.CheckpointHolds

/-!
# Grafeo.Storage.CheckpointEnds

**The end of a checkpoint.** The blocks of the directory take pages that were free
(`encodeGroups_place`) and are read back where they were written (`writeBlocks_spec`), so the
image the writer leaves opens and lists what was written and reused
(`checkpoint_round_trip`).
-/

namespace Grafeo.Storage

open Common Lib List Option Nat ImageReader

/-- The pages a directory block is stored in. -/
def blockRun (cipher : Option ChunkCipher) (block : Nat × List Byte) : PageRun :=
  runOf block.1 (block.2.length + storedExtra cipher)

/-- The block has bytes, and lies in pages that were free. -/
structure BlockPlaced (cipher : Option ChunkCipher) (pages : PageAllocator)
    (block : Nat × List Byte) : Prop where
  nonempty : block.2 ≠ []
  aligned : block.1 % pageSize = 0
  placed : (blockRun cipher block).Placed
  free : ∀ page, (blockRun cipher block).Has page → pages.Free page

theorem BlockPlaced.has_first {cipher : Option ChunkCipher} (h : BlockPlaced cipher pages block) :
    (blockRun cipher block).Has (block.1 / pageSize) := by
  have hpos := length_pos_iff.mpr h.nonempty
  exact has_of_byte h.aligned le_rfl (by omega)

namespace CheckpointWriter

variable {hash : List Byte → BitVec 32} {cipher : Option ChunkCipher} {pages : PageAllocator}
  {blocks : List (Nat × List Byte)} {root : BlockRef} {block : Nat × List Byte}
  {read : Nat → Nat → Except Error (List Byte)} {groups : List (List (List Byte))}
  {entries : List DirectoryEntry} {pages pages' : PageAllocator} {runs runs' : List PageRun}
  {outcomes : List Outcome}

theorem encodeBlock_ne_nil {entries : List (List Byte)} {next : BlockRef} {bytes : List Byte}
    (h : encodeBlock entries next = .ok bytes) : bytes ≠ [] := by
  unfold encodeBlock at h
  split at h <;> cases h
  simp [blockMagic]

theorem placeBlock_spec {length offset : Nat} (hpages : pages.Ok)
    (h : placeBlock cipher (pages, runs) length = .ok (offset, pages', runs')) (hpos : 0 < length) :
    runs' = runs ++ [runOf offset (length + storedExtra cipher)] ∧ offset % pageSize = 0 ∧
      pages.Takes (runOf offset (length + storedExtra cipher)) pages' := by
  unfold placeBlock at h
  split at h
  · cases h
  obtain ⟨⟨run, next⟩, hallocate, h⟩ := bind_eq_ok.mp h
  obtain ⟨hcount, htakes⟩ := PageAllocator.allocate_spec hpages
    (forBytes_pos.mpr (hpos.trans_le (le_add_right _ _))) hallocate
  obtain ⟨start, hstart, h⟩ := bind_eq_ok.mp h
  cases h
  cases (offset_eq_ok htakes.placed).symm.trans hstart
  have hrun : runOf (run.first * pageSize) (length + storedExtra cipher) = run := by
    rw [runOf_mul, ← hcount]
  rw [hrun]
  exact ⟨rfl, mul_mod_left run.first pageSize, htakes⟩

/-- **The blocks take pages that were free**, no two of them the same. -/
theorem encodeGroups_place (hpages : pages.Ok)
    (h : encodeGroups hash (placeBlock cipher) groups (pages, runs) =
      .ok (root, blocks, pages', runs')) :
    pages'.Ok ∧ runs' = runs ++ (blocks.map (blockRun cipher)).reverse ∧
      (∀ block ∈ blocks, BlockPlaced cipher pages block) ∧
      blocks.Pairwise (fun a b => (blockRun cipher a).Disjoint (blockRun cipher b)) ∧
      ∀ page, pages'.Free page ↔
        pages.Free page ∧ ∀ block ∈ blocks, ¬(blockRun cipher block).Has page := by
  induction groups generalizing pages' runs' root blocks with
  | nil =>
    cases h
    exact ⟨hpages, by simp, by simp, .nil, by simp⟩
  | cons group groups ih =>
    obtain ⟨⟨next, rest, pages₁, runs₁⟩, hrest, h⟩ := bind_eq_ok.mp h
    obtain ⟨bytes, hbytes, h⟩ := bind_eq_ok.mp h
    obtain ⟨⟨offset, pages₂, runs₂⟩, hplace, h⟩ := bind_eq_ok.mp h
    dsimp only at h
    split at h <;> cases h
    obtain ⟨hok, hruns, hblocks, hdisjoint, hfree⟩ := ih hrest
    have hne := encodeBlock_ne_nil hbytes
    obtain ⟨hadded, haligned, htakes⟩ :=
      placeBlock_spec hok hplace (length_pos_iff.mpr hne)
    refine ⟨htakes.ok, ?_, fun block hin => ?_, pairwise_cons.mpr
      ⟨fun block hin page hhas hblock => ?_, hdisjoint⟩, fun page => ?_⟩
    · rw [hadded, hruns, map_cons, reverse_cons, append_assoc]
      rfl
    · obtain rfl | hin := mem_cons.mp hin
      · exact ⟨hne, haligned, htakes.placed, fun page hhas =>
          ((hfree page).mp (htakes.free page hhas)).1⟩
      · exact hblocks block hin
    · exact ((hfree page).mp (htakes.free page hhas)).2 block hin hblock
    · rw [htakes.left, hfree, forall_mem_cons, and_assoc, and_comm (b := ¬_)]
      rfl

/-- A block written at a page start, into its own pages. -/
theorem put_block (file : File) (h : BlockPlaced cipher pages block) {stored : List Byte}
    (hlength : stored.length = block.2.length + storedExtra cipher) :
    Untouched (fun page => ¬(blockRun cipher block).Has page) file (file.put block.1 stored) := by
  have hoffset : block.1 = (blockRun cipher block).first * pageSize := by
    have haligned := h.aligned
    change block.1 = block.1 / pageSize * pageSize
    unfold pageSize at *
    omega
  rw [hoffset]
  refine .put file ?_
  rw [hlength]
  exact le_forBytes _

/-! ### The image -/

variable {active : ImageReader} {before : File} {w : CheckpointWriter} {items : List ListedChunk}

/-- The groups of entries a directory has a block for. -/
def groupsOf (entries : List DirectoryEntry) : List (List DirectoryEntry) :=
  if entries.isEmpty then [[]] else pieces entriesPerBlock entries

theorem groupsOf_spec (entries : List DirectoryEntry) :
    groupsOf entries ≠ [] ∧ (groupsOf entries).flatten = entries ∧
      ∀ group ∈ groupsOf entries, group.length ≤ entriesPerBlock := by
  unfold groupsOf
  split
  next hempty =>
    rw [isEmpty_iff.mp hempty]
    exact ⟨by simp, rfl, by simp⟩
  next hempty =>
    have hflatten := flatten_pieces entriesPerBlock entries
    refine ⟨fun hnil => hempty ?_, hflatten, fun group hin => (of_mem_pieces (by decide) hin).2⟩
    rw [← hflatten, hnil]
    rfl

theorem encodeBlocksRaw_eq {σ : Type} (entries : List DirectoryEntry)
    (place : σ → Nat → Except Error (Nat × σ)) (s : σ) :
    encodeBlocksRaw hash (entries.map DirectoryEntry.encode) place s =
      encodeGroups hash place ((groupsOf entries).map (map DirectoryEntry.encode)) s := by
  unfold encodeBlocksRaw groupsOf
  rw [isEmpty_map]
  split
  · rfl
  · rw [pieces_map]

theorem readable_of_placed (h : BlockPlaced cipher pages block)
    (hread : read block.1 block.2.length = .ok block.2) : Readable read block := by
  obtain ⟨hdata, hrange⟩ := h.placed.bytes h.aligned
  exact ⟨h.aligned, hdata, by omega, hread⟩

section

variable (hblocks : ∀ block ∈ blocks, BlockPlaced cipher pages block)
  (hdisjoint : blocks.Pairwise fun a b => (blockRun cipher a).Disjoint (blockRun cipher b))
include hblocks hdisjoint

/-- **The blocks are read back where they were written**, and no other page is touched. -/
theorem writeBlocks_spec {file file' : File}
    (h : writeBlocks cipher file blocks outcomes = .ok file') :
    Untouched (fun page => ∀ block ∈ blocks, ¬(blockRun cipher block).Has page) file file' ∧
      ∀ root, ∀ block ∈ blocks, readBlock cipher file' root block.1 block.2.length = .ok block.2 := by
  induction blocks generalizing file outcomes with
  | nil =>
    cases h
    exact ⟨.refl .., nofun⟩
  | cons block blocks ih =>
    obtain ⟨offset, bytes⟩ := block
    obtain ⟨stored, hstored, h⟩ := bind_eq_ok.mp h
    obtain ⟨_, hchecked, h⟩ := bind_eq_ok.mp h
    have hlength := eq_of_checked hchecked
    have hplaced := hblocks _ mem_cons_self
    obtain ⟨hfirst, hdisjoint⟩ := pairwise_cons.mp hdisjoint
    have hput := put_block file hplaced hlength
    cases hfault : (outcomes.headD {}).fault with
    | some fault =>
      rw [hfault] at h
      cases h
    | none =>
      rw [hfault] at h
      obtain ⟨hrest, hreads⟩ :=
        ih (fun block hin => hblocks block (mem_cons_of_mem _ hin)) hdisjoint h
      refine ⟨(hput.mono fun page hnot => hnot _ mem_cons_self).trans
        (hrest.mono fun page hnot block hin => hnot block (mem_cons_of_mem _ hin)),
        fun root block hin => ?_⟩
      obtain rfl | hin := mem_cons.mp hin
      · have hne : stored ≠ [] := by
          intro hnil
          have hpos := length_pos_iff.mpr hplaced.nonempty
          rw [hnil, length_nil] at hlength
          dsimp only at hpos
          omega
        have hread : file'.readAt offset (bytes.length + storedExtra cipher) = .ok stored := by
          rw [hrest.readAt hplaced.aligned (hlength ▸ File.add_length_le_put _ _ hne)
            fun page hhas block hin hblock => hfirst block hin page hhas hblock, ← hlength]
          exact File.readAt_put _ _ hne
        unfold readBlock
        rw [hread]
        change Except.mapError _ (decryptWith cipher stored (directoryAad offset)) = _
        rw [decryptWith_encryptWith hstored]
        rfl
      · exact hreads root block hin

/-- Blocks in pages of their own have offsets of their own. -/
theorem nodup_offsets : (blocks.map Prod.fst).Nodup := by
  refine pairwise_map.mpr (hdisjoint.imp_of_mem fun {a b} ha hb hab heq => ?_)
  refine hab _ (hblocks a ha).has_first ?_
  rw [heq]
  exact (hblocks b hb).has_first

/-- **The chain of blocks decodes** to the entries it was written from. -/
theorem decodeChain_groups
    {s s' : PageAllocator × List PageRun} (h : encodeGroups hash (placeBlock cipher)
      ((groupsOf entries).map (map DirectoryEntry.encode)) s = .ok (root, blocks, s'))
    (hentries : ∀ entry ∈ entries, entry.Ok)
    (hread : ∀ block ∈ blocks, read block.1 block.2.length = .ok block.2) :
    decodeChain hash (storedExtra cipher) read root =
      .ok { entries, skipped := [], runs := blocks.map (blockRun cipher) } := by
  obtain ⟨hne, hflatten, hsize⟩ := groupsOf_spec entries
  have hgroups : ∀ group ∈ groupsOf entries,
      group.length ≤ entriesPerBlock ∧ ∀ entry ∈ group, entry.Ok := by
    refine fun group hin => ⟨hsize group hin, fun entry hentry => hentries entry ?_⟩
    rw [← hflatten]
    exact mem_flatten_of_mem hin hentry
  have hnodup := nodup_offsets hblocks hdisjoint
  obtain ⟨-, hcount, hroot, hdecode⟩ := decodeFrom_encodeGroups (storedExtra cipher) h hgroups
    (fun block hin => readable_of_placed (hblocks block hin) (hread block hin)) hnodup
  have hlength : (groupsOf entries).length ≤ maxBlocks := by
    have hle := length_le_of_onPage hnodup fun offset hin => ?_
    · rw [length_map, hcount] at hle
      exact hle.trans (le_succ _)
    · obtain ⟨block, hblock, rfl⟩ := mem_map.mp hin
      obtain ⟨haligned, -, hrange, -⟩ := readable_of_placed (hblocks block hblock) (hread block hblock)
      exact ⟨haligned, by omega⟩
  unfold decodeChain
  rw [if_neg fun hzero => hne (hroot.mpr hzero), hdecode [] maxBlocks (by simp) hlength hne, hflatten]
  rfl

end

/-- **The image a checkpoint leaves**: it opens with the entries of the writer, its runs share no
page, and its chunks are fetched as what they hold. -/
theorem Inv.finish (h : Inv hash cipher active before w items) {runs : List PageRun} {file : File}
    (hfinish : w.finish hash cipher outcomes = .ok (root, runs, file)) :
    runs.Pairwise PageRun.Disjoint ∧ (∀ run ∈ runs, run.Placed) ∧
      (∀ run ∈ runs, (∃ entry ∈ w.entries, run = entry.run) ∨
        ∀ page, run.Has page → ¬Uses active page) ∧
      (∃ directory, ImageReader.open hash cipher file root =
        .ok { entries := w.entries, skipped := [], runs := directory }) ∧
      ∃ pages, Forall₂ (Holds hash cipher active before { w with file, pages })
        w.entries items := by
  obtain ⟨⟨root', blocks, pages, runs'⟩, hencode, hfinish⟩ := bind_eq_ok.mp hfinish
  obtain ⟨file', hwrite, hfinish⟩ := bind_eq_ok.mp hfinish
  cases hfinish
  rw [encodeBlocksRaw_eq] at hencode
  obtain ⟨hpages, hruns, hblocks, hdisjoint, hfree⟩ := encodeGroups_place h.pages hencode
  obtain ⟨huntouched, hreads⟩ := writeBlocks_spec hblocks hdisjoint hwrite
  have hadvance : Advances w { w with file, pages } :=
    ⟨hpages, fun page hin => ((hfree page).mp hin).1, huntouched.mono fun page hnot block hin hhas =>
      hnot ((hblocks block hin).free page hhas)⟩
  have hholds : Forall₂ (Holds hash cipher active before { w with file, pages })
    w.entries items := h.holds.imp fun _ _ hholds => hholds.advance hadvance
  have hentry : ∀ entry ∈ w.entries, ∃ item, Holds hash cipher active before w entry item :=
    fun entry hin => (exists_of_forall₂ h.holds hin).imp fun _ hboth => hboth.2
  have hentriesOk : ∀ entry ∈ w.entries, entry.Ok :=
    fun entry hin => (hentry entry hin).elim fun _ hitem => hitem.ok
  -- A run is that of a chunk with bytes or that of a block, and these share no page.
  have hmem : ∀ run, run ∈ w.runs ↔ ∃ entry ∈ w.entries, entry.run = run ∧ entry.length ≠ 0 := by
    intro run
    rw [h.runs, mem_filter, List.mem_map, decide_eq_true_eq]
    grind [run_count]
  have hpairs : (w.runs ++ blocks.map (blockRun cipher)).Pairwise PageRun.Disjoint := by
    refine pairwise_append.mpr ⟨?_, pairwise_map.mpr hdisjoint, fun run hrun =>
      forall_mem_map.mpr fun block hblock page hhas hin => ?_⟩
    · rw [h.runs]
      exact (pairwise_map.mpr h.disjoint).filter _
    · obtain ⟨entry, hentry', rfl, -⟩ := (hmem run).mp hrun
      obtain ⟨item, hitem⟩ := hentry entry hentry'
      exact hitem.taken page hhas ((hblocks block hblock).free page hin)
  have hplaced : ∀ run ∈ w.runs ++ blocks.map (blockRun cipher), run.Placed := by
    refine forall_mem_append.mpr ⟨fun run hrun => ?_,
      forall_mem_map.mpr fun block hblock => (hblocks block hblock).placed⟩
    obtain ⟨entry, hin, rfl, hbytes⟩ := (hmem run).mp hrun
    obtain ⟨item, hitem⟩ := hentry entry hin
    exact hitem.placed hbytes
  have hperm : runs.Perm (w.runs ++ blocks.map (blockRun cipher)) := by
    rw [hruns]
    exact (reverse_perm _).append_left _
  refine ⟨(hperm.pairwise_iff fun hab => hab.symm).mpr hpairs,
    fun run hrun => hplaced run (hperm.mem_iff.mp hrun), fun run hrun => ?_,
    ⟨blocks.map (blockRun cipher), open_eq_ok.mpr ⟨?_, ?_⟩⟩, pages, hholds⟩
  · obtain hrun | hrun := mem_append.mp (hperm.mem_iff.mp hrun)
    · obtain ⟨entry, hin, rfl, -⟩ := (hmem run).mp hrun
      exact .inl ⟨entry, hin, rfl⟩
    · obtain ⟨block, hblock, rfl⟩ := mem_map.mp hrun
      exact .inr fun page hhas => h.spares page ((hblocks block hblock).free page hhas)
  · exact decodeChain_groups hblocks hdisjoint hencode hentriesOk (hreads root)
  · have hused : usedRuns { entries := w.entries, runs := blocks.map (blockRun cipher) } =
        w.runs ++ blocks.map (blockRun cipher) := by
      rw [h.runs]
      simp [usedRuns]
    exact {
      sections := h.sections
      entries entry hin := (exists_of_forall₂ hholds hin).elim fun _ hitem => hitem.2.inFile
      skipped := nofun
      placed run hrun _ := hplaced run (hused ▸ hrun)
      disjoint := (hused ▸ hpairs).filter _ }

/-- A new writer that follows an image, with the pages no image uses. -/
theorem Inv.following (hash : List Byte → BitVec 32) (cipher : Option ChunkCipher) (before : File)
    {spared : List PageRun} (hpages : PageAllocator.fromUsed spared = .ok pages)
    (hspared : ∀ page, Uses active page → ∃ run ∈ spared, run.Has page) :
    Inv hash cipher active before
      (({ file := before, pages } : CheckpointWriter).following active) [] := by
  obtain ⟨hok, -, -, hfree⟩ := PageAllocator.fromUsed_spec hpages
  refine
    { pages := hok
      spares page hpage huses := ?_
      file := .refl ..
      follows := rfl
      previous := nofun
      begun := nofun
      current := nofun
      inBegun := nofun
      sections := .nil
      holds := Forall₂.nil
      runs := rfl
      disjoint := .nil }
  obtain ⟨run, hrun, hhas⟩ := hspared page huses
  exact ((hfree page).mp hpage).2 run hrun hhas

theorem exists_getElem?_of_forall₂ {α β : Type} {R : α → β → Prop} {l : List α} {l' : List β}
    (h : Forall₂ R l l') {i : Nat} {b : β} (hb : l'[i]? = some b) :
    ∃ a, l[i]? = some a ∧ R a b := by
  obtain ⟨hlength, hrel⟩ := forall₂_iff_get.mp h
  obtain ⟨hi, rfl⟩ := List.getElem?_eq_some_iff.mp hb
  exact ⟨_, getElem?_eq_getElem (hlength ▸ hi), hrel i _ hi⟩

/-- The chunks of one section, of those a checkpoint listed. -/
def listedOf (items : List ListedChunk) (type : SectionType) : List ListedChunk :=
  items.filter fun item => decide (item.sectionType = type)

/-- Chunk `index` of the section is fetched as what was written; as what the followed image
has of it, when it was reused. -/
def FetchedFrom (hash : List Byte → BitVec 32) (cipher : Option ChunkCipher)
    (active : ImageReader) (before file : File) (chunks : SectionChunks) (index : Nat)
    (item : ListedChunk) : Prop :=
  match item.held with
  | .written bytes => chunks.fetch hash cipher file index = .ok bytes
  | .reused old => ∃ olds oldIndex, ImageReader.ofSection active item.sectionType = some olds ∧
      olds.entries[oldIndex]? = some old ∧ olds.metas[oldIndex]? = some item.chunk ∧
      ∀ bytes, chunks.fetch hash cipher file index = .ok bytes ↔
        olds.fetch hash cipher before oldIndex = .ok bytes

/-- The section of a chunk of an image: its chunks are those of the image, with its version. -/
theorem ofSection_of_mem (image : ImageReader) (h : image.entries.Pairwise Compatible)
    {entry : DirectoryEntry} (hin : entry ∈ image.entries) :
    ∃ chunks, ImageReader.ofSection image entry.sectionType = some chunks ∧ chunks.entries =
        image.entries.filter (fun other => decide (other.sectionType = entry.sectionType)) ∧
      chunks.metas = chunks.entries.map DirectoryEntry.chunk ∧
      chunks.version = entry.sectionVersion := by
  have hsame : ∀ a ∈ image.entries, ∀ b ∈ image.entries,
      a.sectionType = b.sectionType → a.sectionVersion = b.sectionVersion := by
    have : Std.Symm fun a b : DirectoryEntry =>
        a.sectionType = b.sectionType → a.sectionVersion = b.sectionVersion :=
      ⟨fun _ _ hab heq => (hab heq.symm).symm⟩
    exact fun a ha b hb =>
      (h.imp fun hab heq => (hab heq).1).forall_of_forall (fun _ _ _ => rfl) ha hb
  unfold ofSection
  cases hentries : image.entries.filter fun other =>
      decide (other.sectionType = entry.sectionType) with
  | nil =>
    exact absurd (decide_eq_true rfl) (filter_eq_nil_iff.mp hentries entry hin)
  | cons first rest =>
    obtain ⟨hfirst, htype⟩ := mem_filter.mp (hentries ▸ mem_cons_self : first ∈ _)
    exact ⟨_, rfl, rfl, rfl, hsame first hfirst entry hin (of_decide_eq_true htype)⟩

/-- What the entries hold is what their sections fetch. -/
theorem fetched_of_holds (h : Forall₂ (Holds hash cipher active before w) entries items)
    (hsections : entries.Pairwise Compatible) (hactive : active.entries.Pairwise Compatible)
    {directory : List PageRun} {type : SectionType} {index : Nat} {item : ListedChunk}
    (hitem : (listedOf items type)[index]? = some item) :
    ∃ chunks, ImageReader.ofSection { entries, skipped := [], runs := directory } type =
        some chunks ∧
      chunks.version = item.sectionVersion ∧ chunks.metas[index]? = some item.chunk ∧
      FetchedFrom hash cipher active before w.file chunks index item := by
  have hfilter : Forall₂ (Holds hash cipher active before w)
      (entries.filter fun entry => decide (entry.sectionType = type)) (listedOf items type) := by
    refine rel_filter (fun entry item hitem => ?_) h
    dsimp only
    rw [hitem.sectionType]
  obtain ⟨entry, hentry, hholds⟩ := exists_getElem?_of_forall₂ hfilter hitem
  obtain ⟨hmem, htype⟩ := mem_filter.mp (mem_of_getElem? hentry)
  cases of_decide_eq_true htype
  obtain ⟨chunks, hchunks, hentries, hmetas, hversion⟩ :=
    ofSection_of_mem (⟨entries, [], directory⟩ : ImageReader) hsections hmem
  have hfetch : ∀ file, chunks.fetch hash cipher file index = fetchEntry hash cipher file entry := by
    intro file
    rw [SectionChunks.fetch, hentries, hentry]
  refine ⟨chunks, hchunks, hversion.trans hholds.sectionVersion, ?_, ?_⟩
  · rw [hmetas, hentries, getElem?_map, hentry, map_some, hholds.chunk]
  have hfetched := hholds.fetched
  unfold FetchedFrom
  cases hheld : item.held with
  | written bytes =>
    rw [hheld] at hfetched
    exact (hfetch w.file).trans hfetched
  | reused old =>
    rw [hheld] at hfetched
    obtain ⟨hold, htype, hchunk⟩ := hholds.reused old hheld
    obtain ⟨olds, holds, holdEntries, holdMetas, -⟩ := ofSection_of_mem active hactive hold
    have hin : old ∈ olds.entries := by
      rw [holdEntries]
      exact mem_filter.mpr ⟨hold, decide_eq_true rfl⟩
    obtain ⟨oldIndex, hindex⟩ := mem_iff_getElem?.mp hin
    refine ⟨olds, oldIndex, ?_, hindex, ?_, fun bytes => ?_⟩
    · rw [← hholds.sectionType, ← htype]
      exact holds
    · rw [holdMetas, getElem?_map, hindex, map_some, hchunk, hholds.chunk]
    · rw [hfetch, hfetched, SectionChunks.fetch, hindex]

/-- **A checkpoint that follows an image.** The runs of the new image share no page, lie in the
data area, and touch the followed image only where a chunk of it was reused in place. The new
image opens and lists the chunks written and reused, in order, and fetches what they hold. -/
theorem checkpoint_round_trip (hash : List Byte → BitVec 32) (cipher : Option ChunkCipher)
    {file file' : File} {root root' : BlockRef} {active : ImageReader}
    (hactive : ImageReader.open hash cipher file root = .ok active)
    {spared : List PageRun} {pages : PageAllocator}
    (hpages : PageAllocator.fromUsed spared = .ok pages)
    (hspared : ∀ page, Uses active page → ∃ run ∈ spared, run.Has page)
    (calls : List Call) (outcomes : List Outcome) {runs : List PageRun}
    (hfinish : ((({ file, pages } : CheckpointWriter).following active).calls hash cipher
      calls).finish hash cipher outcomes = .ok (root', runs, file')) :
    let items := (({ file, pages } : CheckpointWriter).following active).listed hash cipher calls
    runs.Pairwise PageRun.Disjoint ∧ (∀ run ∈ runs, dataStartPage ≤ run.first) ∧
      ∃ image, ImageReader.open hash cipher file' root' = .ok image ∧ image.skipped = [] ∧
        image.entries.map (fun entry => (entry.sectionType, entry.sectionVersion, entry.chunk)) =
          items.map (fun item => (item.sectionType, item.sectionVersion, item.chunk)) ∧
        (∀ run ∈ runs, ∀ page, run.Has page → Uses active page →
          ∃ entry ∈ image.entries, ∃ item ∈ items, ∃ old ∈ active.entries,
            item.held = .reused old ∧ entry.chunk = item.chunk ∧ run = entry.run ∧
              entry.offset = old.offset ∧ entry.length = old.length) ∧
        ∀ type index item, (listedOf items type)[index]? = some item →
          ∃ chunks, ofSection image type = some chunks ∧
            chunks.version = item.sectionVersion ∧ chunks.metas[index]? = some item.chunk ∧
            FetchedFrom hash cipher active file file' chunks index item := by
  obtain ⟨hdecode, hok⟩ := open_eq_ok.mp hactive
  have hinv := (Inv.following hash cipher file hpages hspared).calls hok
    (fun old hin => (decodeChain_lt hdecode hin).1) calls
  obtain ⟨hdisjoint, hplaced, hruns, ⟨directory, hopen⟩, pages', hholds⟩ := hinv.finish hfinish
  refine ⟨hdisjoint, fun run hin => (hplaced run hin).1, _, hopen, rfl, ?_, ?_, ?_⟩
  · refine forall₂_eq_eq_eq ▸ forall₂_map_left_iff.mpr (forall₂_map_right_iff.mpr
      (hholds.imp fun entry item hitem => ?_))
    rw [hitem.sectionType, hitem.sectionVersion, hitem.chunk]
  · intro run hrun page hhas huses
    obtain ⟨entry, hentry, rfl⟩ | hnone := hruns run hrun
    · obtain ⟨item, hitem, hentryHolds⟩ := exists_of_forall₂ hholds hentry
      obtain ⟨old, hold, hoffset, hlength⟩ | hnone := hentryHolds.place
      · exact ⟨entry, hentry, item, hitem, old, (hentryHolds.reused old hold).1, hold,
          hentryHolds.chunk, rfl, hoffset, hlength⟩
      · exact absurd huses (hnone page hhas)
    · exact absurd huses (hnone page hhas)
  · intro type index item hitem
    exact fetched_of_holds hholds hinv.sections hok.sections hitem

/-! Two checkpoints in an empty file: the second reuses the chunk of the first, and adds one. -/

def firstChunk : ChunkMeta := ⟨.metadata, .ofSection, 0, 0, 0, 0, 1⟩

def secondChunk : ChunkMeta := ⟨.raw, .ofSection, 0, 0, 0, 0, 2⟩

def firstCheckpoint : Except Error (BlockRef × List PageRun × File) :=
  ((({ file := ⟨0, fun _ => 0⟩, pages := ⟨[], 3⟩ } : CheckpointWriter).following {}).calls
    (fun _ => 5) none [.beginSection .catalog 1, .writeChunk firstChunk [7] {}]).finish
      (fun _ => 5) none []

def firstFile : File := (firstCheckpoint.toOption.map fun ended => ended.2.2).getD ⟨0, fun _ => 0⟩

def firstRoot : BlockRef := (firstCheckpoint.toOption.map fun ended => ended.1).getD {}

def firstImage : ImageReader where
  entries := [⟨.catalog, 1, firstChunk, 3 * pageSize, 1, 5, 0⟩]
  skipped := []
  runs := [⟨4, 1⟩]

theorem eq_ok_of_toOption {ε α : Type} {r : Except ε α} {a : α} (h : r.toOption = some a) :
    r = .ok a := by
  cases r with
  | error => cases h
  | ok b => exact congrArg Except.ok (some.inj h)

theorem open_firstFile :
    ImageReader.open (fun _ => 5) none firstFile firstRoot = .ok firstImage := by
  refine open_eq_ok.mpr ⟨eq_ok_of_toOption (by decide +kernel), ?_⟩
  have hused : usedRuns firstImage = [⟨3, 1⟩, ⟨4, 1⟩] := by decide +kernel
  refine
    { sections := pairwise_singleton ..
      entries entry hin _ := ?_
      skipped := nofun
      placed run hrun _ := ?_
      disjoint := ?_ }
  · cases mem_singleton.mp hin
    decide +kernel
  · rw [hused] at hrun
    obtain rfl | hrun := mem_cons.mp hrun
    · exact ⟨by decide, by decide⟩
    · cases mem_singleton.mp hrun
      exact ⟨by decide, by decide⟩
  · rw [hused]
    refine pairwise_pair.mpr fun page hfirst hsecond => ?_
    have hlt : page < 4 := hfirst.2
    have hle : 4 ≤ page := hsecond.1
    omega

def secondWriter : CheckpointWriter :=
  ({ file := firstFile, pages := ⟨[], 5⟩ } : CheckpointWriter).following firstImage

def secondCalls : List Call :=
  [.beginSection .catalog 1, .reuseChunk 0 {}, .writeChunk secondChunk [8, 9] {}]

theorem checkpoint_round_trip_second :
    ∃ root runs file, (secondWriter.calls (fun _ => 5) none secondCalls).finish (fun _ => 5) none [] =
        .ok (root, runs, file) ∧
      runs.Pairwise PageRun.Disjoint ∧
      ∃ image, ImageReader.open (fun _ => 5) none file root = .ok image ∧
        ∃ chunks, ImageReader.ofSection image .catalog = some chunks ∧
          chunks.fetch (fun _ => 5) none file 0 = .ok [7] ∧
          chunks.fetch (fun _ => 5) none file 1 = .ok [8, 9] := by
  have hsome : ((secondWriter.calls (fun _ => 5) none secondCalls).finish
      (fun _ => 5) none []).toOption.isSome = true := by decide +kernel
  obtain ⟨⟨root, runs, file⟩, hended⟩ := isSome_iff_exists.mp hsome
  have hfinish := eq_ok_of_toOption hended
  have hpages : PageAllocator.fromUsed (usedRuns firstImage) = .ok ⟨[], 5⟩ := by
    have hruns : ((usedRuns firstImage).filter fun run => decide (0 < run.count)) =
        [⟨3, 1⟩, ⟨4, 1⟩] := by decide +kernel
    rw [PageAllocator.fromUsed, hruns, mergeSort_of_pairwise (by decide)]
    exact eq_ok_of_toOption (by decide +kernel)
  obtain ⟨hdisjoint, -, image, hopen, -, -, -, hfetch⟩ := checkpoint_round_trip (fun _ => 5) none
    open_firstFile hpages (fun page huses => huses) secondCalls [] hfinish
  obtain ⟨chunks, hchunks, -, -, hfirst⟩ := hfetch .catalog 0
    ⟨.catalog, 1, firstChunk, .reused ⟨.catalog, 1, firstChunk, 3 * pageSize, 1, 5, 0⟩⟩
    (by decide +kernel)
  obtain ⟨chunks', hchunks', -, -, hsecond⟩ := hfetch .catalog 1
    ⟨.catalog, 1, secondChunk, .written [8, 9]⟩ (by decide +kernel)
  cases hchunks.symm.trans hchunks'
  obtain ⟨olds, index, holds, hindex, -, hbytes⟩ := hfirst
  refine ⟨root, runs, file, hfinish, hdisjoint, image, hopen, chunks, hchunks, ?_, hsecond⟩
  have hold : fetchEntry (fun _ => 5) none firstFile
      ⟨.catalog, 1, firstChunk, 3 * pageSize, 1, 5, 0⟩ = .ok [7] :=
    eq_ok_of_toOption (by decide +kernel)
  refine (hbytes [7]).mpr ?_
  rw [SectionChunks.fetch, hindex]
  exact hold

/-- **A checkpoint that is cut short costs nothing.** After any calls, whatever of them failed,
the pages of the image it follows, its directory's included, hold the bytes they held, and each of
its chunks is fetched as before. -/
theorem followed_image_stays (hash : List Byte → BitVec 32) (cipher : Option ChunkCipher)
    {file : File} {root : BlockRef} {active : ImageReader}
    (hactive : ImageReader.open hash cipher file root = .ok active)
    {spared : List PageRun} {pages : PageAllocator}
    (hpages : PageAllocator.fromUsed spared = .ok pages)
    (hspared : ∀ page, Uses active page → ∃ run ∈ spared, run.Has page) (calls : List Call) :
    let w := (({ file, pages } : CheckpointWriter).following active).calls hash cipher calls
    Untouched (Uses active) file w.file ∧ ∀ entry ∈ active.entries,
      fetchEntry hash cipher w.file entry = fetchEntry hash cipher file entry := by
  obtain ⟨hdecode, hok⟩ := open_eq_ok.mp hactive
  have hinv := (Inv.following hash cipher file hpages hspared).calls hok
    (fun old hin => (decodeChain_lt hdecode hin).1) calls
  exact ⟨hinv.file, fun entry hin => fetchEntry_congr (hinv.readAt_old hok hin)⟩

theorem followed_image_stays_second :
    fetchEntry (fun _ => 5) none (secondWriter.calls (fun _ => 5) none secondCalls).file
      ⟨.catalog, 1, firstChunk, 3 * pageSize, 1, 5, 0⟩ = .ok [7] := by
  have hpages : PageAllocator.fromUsed (usedRuns firstImage) = .ok ⟨[], 5⟩ := by
    have hruns : ((usedRuns firstImage).filter fun run => decide (0 < run.count)) =
        [⟨3, 1⟩, ⟨4, 1⟩] := by decide +kernel
    rw [PageAllocator.fromUsed, hruns, mergeSort_of_pairwise (by decide)]
    exact eq_ok_of_toOption (by decide +kernel)
  exact ((followed_image_stays _ _ open_firstFile hpages (fun _ huses => huses) secondCalls).2 _
    mem_cons_self).trans (eq_ok_of_toOption (by decide +kernel))

end CheckpointWriter

end Grafeo.Storage
