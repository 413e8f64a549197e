import SampleDB.LeafInsertion
import SampleDB.Routing
import SampleDB.Runs

/-!
How an index grows. An insertion keeps the keys of every leaf in the range that the
directory has for it, and divides the range of a leaf that it divides. So a lookup after any
insertions goes to the right leaf, unless it or one of the insertions misreads a page: the
slot behind the entries of a page, which no entry has used yet or one was moved away from,
may hold the key that is looked for.
-/
namespace SampleDB.IndexGrowth

open Words Pages Blocks Schemas Rollback TableScans KeyOrder BTreePages BTreeLeaves BTreeDirs
open BTreeIndexes PageLists SortedLists LeafInsertion DirInsertion KeyRanges DirGrowth RootGrowth
open Routing Runs

/-- The keys of the leaf are in the range. -/
structure LeafIn (B : BlockSize) (L : Layout) (c : Contents Rid) (flag : ℤ)
    (rs : List (Record Rid)) (lo : Value) (hi : WithTop Value) : Prop where
  leaf : IsLeaf B L c flag rs
  chain : flag = -1 ∨ 0 ≤ flag ∧ rs ≠ []
  le : ∀ r ∈ rs, lo ≤ r.dataval
  lt : ∀ r ∈ rs, (r.dataval : WithTop Value) < hi

/-- Every block that has a range is a leaf for it. -/
def LeavesIn (B : BlockSize) (L : Layout) (blocks : List (Contents Rid)) (ranges : Ranges) :
    Prop :=
  ∀ b lo hi, ranges b = some (lo, hi) →
    ∃ c flag rs, blocks[b]? = some c ∧ LeafIn B L c flag rs lo hi

/-- The ranges of an index. -/
structure IndexOk (B : BlockSize) (idx : BTreeIndex) (height : ℕ) (ranges : ℕ → Ranges) :
    Prop where
  dir : DirOk B idx.dirOf idx.dirFile.blocks (minVal idx.type) height ranges
  leaves : LeavesIn B idx.leafOf idx.leafFile.blocks (ranges 0)

/-- The entry for the directory that an insertion gets from the leaf. -/
def entryOf (B : BlockSize) (fuel : ℕ) (idx : BTreeIndex) (dataval : Value) (datarid : Rid) :
    Result (Option DirEntry) := do
  let idx ← idx.beforeFirst fuel dataval
  let (_, dirEntry) ← (← idx.currentLeaf).insert idx.leafOf B datarid
  return dirEntry

/-- An insertion that returns. No page is misread on the way of its key, or of the key of a
divided leaf. -/
structure CleanInsert (B : BlockSize) (idx : BTreeIndex) (op : Value × Rid) (idx' : BTreeIndex) :
    Prop where
  suits : Suits idx.leafOf op.1
  clear : Clear idx.dirOf idx.dirFile.blocks op.1 0 0
  raised : ∀ fuel e, entryOf B fuel idx op.1 op.2 = .ok (some e) →
    Clear idx.dirOf idx.dirFile.blocks e.dataVal 1 0
  returns : ∃ n, ∀ fuel, n ≤ fuel → idx.insert B fuel op.1 op.2 = .ok idx'

/-- The insertion of a record into the leaf whose range has its key. -/
def LeafStep (B : BlockSize) (L : Layout) (blocks blocks' : List (Contents Rid))
    (ranges ranges' : Ranges) (r : Record Rid) : Prop :=
  ∃ blk lo hi c flag rs e, ranges blk = some (lo, hi) ∧ lo ≤ r.dataval ∧
    (r.dataval : WithTop Value) < hi ∧ blocks[blk]? = some c ∧ LeafIn B L c flag rs lo hi ∧
    Inserted B L blocks blk flag rs r blocks' e ∧ NewFilled blocks blocks' ∧
    (e = none ∧ ranges' = ranges ∨ ∃ v, e = some ⟨v, blocks.length⟩ ∧ lo < v ∧
      (v : WithTop Value) < hi ∧ ranges' = divide ranges blk blocks.length v)

section Index

variable {B : BlockSize} {type : FieldType} {length : ℕ} {idx idx' : BTreeIndex} {key v : Value}
  {height : ℕ} {ranges : ℕ → Ranges}

theorem suits_minVal (h : type ≠ .boolean) : Suits (dirLayout type length) (minVal type) := by
  have hdefault : Suits (dirLayout type length) (dirLayout type length).defaultValue := .default h
  cases type with
  | integer => rfl
  | varchar => exact hdefault
  | boolean => exact absurd rfl h

/-- No key is smaller than the one of the first entry. -/
theorem minVal_le (htype : type ≠ .boolean) (h : Compares (dirLayout type length) v) :
    minVal type ≤ v := by
  have hless := less_eq (h _ (suits_minVal htype)).symm
  apply not_lt.mp
  intro hlt
  rw [decide_eq_true hlt] at hless
  cases type with
  | boolean => exact absurd rfl htype
  | integer =>
    cases v with
    | int n =>
      have hn : n.toInt < (-2147483648 : Int32).toInt :=
        of_decide_eq_true (Except.ok.inj hless)
      exact absurd (Int32.le_toInt n) (not_le.mpr hn)
    | string s => cases hless
  | varchar =>
    cases v with
    | int n => cases hless
    | string s =>
      have hs : s.map UInt8.toNat < [] := of_decide_eq_true (Except.ok.inj hless)
      exact absurd hs (List.not_lt_nil _)

/-- A fresh index has one empty leaf. -/
theorem openLeaves_empty (B : BlockSize) (L : Layout) (pins : List ℕ) :
    BTreeIndex.openLeaves B L ⟨[], pins⟩ = .ok ⟨[page (-1) [] (fresh B L)], 0 :: pins⟩ := by
  unfold BTreeIndex.openLeaves
  rw [if_pos List.length_nil]
  dsimp only
  rw [contents_eq (c := Contents.zero L B) List.mem_cons_self rfl, ok_bind, format_zero]
  rfl

/-- A fresh index has one leaf and one entry, for all keys. -/
theorem indexOk_new (pins pins' : List ℕ) (htype : type ≠ .boolean)
    (hleaf : 8 + 3 * (leafLayout type length).slotSize < B.bytes)
    (hdir : 8 + 3 * (dirLayout type length).slotSize < B.bytes) :
    ∃ idx, BTreeIndex.new B type length ⟨[], pins⟩ ⟨[], pins'⟩ = .ok idx ∧ idx.type = type ∧
      idx.length = length ∧ IndexOk B idx 0 (fun _ => whole (minVal type)) := by
  have hpos : 2 < capacity B (dirLayout type length) := lt_capacity hdir
  obtain ⟨z, rest, hfresh⟩ : ∃ z rest,
      (fresh B (dirLayout type length) : List (Option (Record ℕ))) = z :: rest := by
    cases hf : (fresh B (dirLayout type length) : List (Option (Record ℕ))) with
    | nil =>
      have hlen : (fresh B (dirLayout type length) : List (Option (Record ℕ))).length = _ :=
        fresh_length
      rw [hf, List.length_nil] at hlen
      omega
    | cons z rest => exact ⟨z, rest, rfl⟩
  have hmin : Suits (dirLayout type length) (minVal type) := suits_minVal htype
  have hinsert : insertDir (dirLayout type length)
      (page 0 [] (fresh B (dirLayout type length))) 0 (minVal type) 0 =
        .ok (page 0 [⟨minVal type, 0⟩] rest) := by
    rw [hfresh]
    exact insertRecord_page 0 rest [] [] z 0 (fun r hr => by cases hr) hmin
  have hleaves := openLeaves_empty B (leafLayout type length) pins
  have hroot : BTreeIndex.openDir B (dirLayout type length) ⟨[], pins'⟩ =
      .ok ⟨[page 0 [⟨minVal type, 0⟩] rest], pins'⟩ := by
    unfold BTreeIndex.openDir
    rw [if_pos List.length_nil]
    dsimp only
    rw [contents_eq (c := Contents.zero (dirLayout type length) B) List.mem_cons_self rfl, ok_bind,
      format_zero, show (dirLayout type length).dataval = type from rfl, hinsert, ok_bind]
    show Except.ok (IndexFile.unpin _ _) = _
    unfold IndexFile.unpin
    rw [show (IndexFile.put _ _ _).pins = 0 :: pins' from rfl, List.erase_cons_head]
    rfl
  have hlen : 1 + rest.length = capacity B (dirLayout type length) := by
    have h : (fresh B (dirLayout type length) : List (Option (Record ℕ))).length = _ := fresh_length
    rw [hfresh, List.length_cons] at h
    omega
  refine ⟨⟨type, length, ⟨[page (-1) [] (fresh B (leafLayout type length))], 0 :: pins⟩,
    ⟨[page 0 [⟨minVal type, 0⟩] rest], pins'⟩, none⟩, ?_, rfl, rfl, ⟨⟨fun i hi => ?_,
    apart_whole _, if_pos rfl, fun b range hb => (whole_cases hb).1⟩, fun b lo hi hb => ?_⟩⟩
  · unfold BTreeIndex.new
    rw [hleaves, ok_bind, hroot]
    rfl
  · obtain rfl : i = 0 := Nat.le_zero.mp hi
    refine ⟨fun b lo hi hb => ?_, apart_whole _⟩
    obtain ⟨rfl, rfl, rfl⟩ := whole_cases hb
    refine ⟨[⟨minVal type, 0⟩], rest, rfl, isDir_page hlen ?_ (List.pairwise_singleton _ _) ?_,
      fun o ho => ⟨Contents.defaultRecord (dirLayout type length), ?_, ?_⟩, rfl,
      fun r _ => WithTop.coe_lt_top _, if_pos rfl, trivial⟩
    · intro r hr
      rw [List.mem_singleton.mp hr]
      exact hmin
    · show 8 + 2 * (dirLayout type length).slotSize < B.bytes
      omega
    · exact List.eq_of_mem_replicate (hfresh ▸ List.mem_cons_of_mem _ ho)
    · exact Suits.default htype
  · obtain ⟨rfl, rfl, rfl⟩ := whole_cases hb
    refine ⟨page (-1) [] (fresh B (leafLayout type length)), -1, [], rfl,
      ⟨isLeaf_page ?_ ?_ ?_ ?_, Or.inl rfl,
        fun r hr => absurd hr List.not_mem_nil, fun r hr => absurd hr List.not_mem_nil⟩⟩
    · rw [List.length_nil, Nat.zero_add]
      exact fresh_length
    · exact fun r hr => by cases hr
    · exact List.Pairwise.nil
    · show 8 + (0 + 1) * (leafLayout type length).slotSize < B.bytes
      omega

/-- What an insertion into a leaf does to the ranges. -/
theorem leavesIn_inserted {L : Layout} {ranges : Ranges} {blocks blocks' : List (Contents Rid)}
    {c : Contents Rid} {flag : ℤ} {rs : List (Record Rid)} {r : Record Rid} {blk : ℕ} {lo : Value}
    {hi : WithTop Value} {e : Option DirEntry} (h : LeavesIn B L blocks ranges)
    (hrange : ranges blk = some (lo, hi)) (hblk : blocks[blk]? = some c)
    (hc : LeafIn B L c flag rs lo hi) (hlo : lo ≤ r.dataval)
    (hhi : (r.dataval : WithTop Value) < hi)
    (hins : Inserted B L blocks blk flag rs r blocks' e) :
    (e = none ∧ LeavesIn B L blocks' ranges) ∨
      ∃ v, e = some ⟨v, blocks.length⟩ ∧ lo < v ∧ (v : WithTop Value) < hi ∧ Suits L v ∧
        LeavesIn B L blocks' (divide ranges blk blocks.length v) := by
  have hlen : blk < blocks.length := (List.getElem?_eq_some_iff.mp hblk).1
  have hle : ∀ a ∈ r :: rs, lo ≤ a.dataval := List.forall_mem_cons.mpr ⟨hlo, hc.le⟩
  have hlt : ∀ a ∈ r :: rs, (a.dataval : WithTop Value) < hi :=
    List.forall_mem_cons.mpr ⟨hhi, hc.lt⟩
  cases hins with
  | whole c' rs' hleaf hperm hchain =>
    refine Or.inl ⟨rfl, fun b lo' hi' hb => ?_⟩
    by_cases hsame : b = blk
    · subst b
      rw [hrange] at hb
      cases hb
      refine ⟨c', flag, rs', List.getElem?_set_self hlen, hleaf, ?_,
        fun a ha => hle a (hperm.subset ha), fun a ha => hlt a (hperm.subset ha)⟩
      refine hc.chain.imp_right (fun hflag => ⟨hflag.1, fun hnil => ?_⟩)
      rw [hnil] at hperm
      exact List.cons_ne_nil r rs hperm.nil_eq.symm
    · rw [List.getElem?_set_ne (Ne.symm hsame)]
      exact h b lo' hi' hb
  | continued c' c'' rs₁ rs₂ v hleaf hleaf' hperm hne hall =>
    have hsub : ∀ a ∈ rs₁, a ∈ r :: rs := fun a ha => hperm.subset (List.mem_append_left _ ha)
    refine Or.inl ⟨rfl, fun b lo' hi' hb => ?_⟩
    by_cases hsame : b = blk
    · subst b
      rw [hrange] at hb
      cases hb
      exact ⟨c', blocks.length, rs₁, set_append_self [c''] c' hlen, hleaf,
        Or.inr ⟨Int.natCast_nonneg _, hne⟩, fun a ha => hle a (hsub a ha),
        fun a ha => hlt a (hsub a ha)⟩
    · obtain ⟨c₁, flag₁, rs', hget, hin⟩ := h b lo' hi' hb
      have hblt : b < blocks.length := (List.getElem?_eq_some_iff.mp hget).1
      exact ⟨c₁, flag₁, rs', (set_append_ne [c''] c' hsame hblt).trans hget, hin⟩
  | divided c' c'' flag₁ flag₂ rs₁ rs₂ v hleaf hleaf' hperm hbelow habove hfirst hne hchain =>
    have hsub₁ : ∀ a ∈ rs₁, a ∈ r :: rs := fun a ha => hperm.subset (List.mem_append_left _ ha)
    have hsub₂ : ∀ a ∈ rs₂, a ∈ r :: rs := fun a ha => hperm.subset (List.mem_append_right _ ha)
    obtain ⟨first, hhead, hv⟩ := Option.map_eq_some_iff.mp hfirst
    have hmem : first ∈ rs₂ := List.mem_of_head? hhead
    have hne' : rs₂ ≠ [] := List.ne_nil_of_mem hmem
    obtain ⟨a, ha⟩ := List.exists_mem_of_ne_nil rs₁ hne
    have hlov : lo < v := lt_of_le_of_lt (hle a (hsub₁ a ha)) (hbelow a ha)
    have hvhi : (v : WithTop Value) < hi := hv ▸ hlt first (hsub₂ first hmem)
    have hflags : (flag₁ = -1 ∨ 0 ≤ flag₁ ∧ rs₁ ≠ []) ∧ (flag₂ = -1 ∨ 0 ≤ flag₂ ∧ rs₂ ≠ []) := by
      obtain ⟨⟨rfl, -⟩, rfl⟩ | ⟨rfl, rfl, -⟩ := hchain
      · exact ⟨hc.chain.imp_right (fun hflag => ⟨hflag.1, hne⟩), Or.inl rfl⟩
      · exact ⟨Or.inl rfl, hc.chain.imp_right (fun hflag => ⟨hflag.1, hne'⟩)⟩
    refine Or.inr ⟨v, rfl, hlov, hvhi, hv ▸ hleaf'.suits first hmem, fun b lo' hi' hb => ?_⟩
    have hcases := divide_cases hrange hb
    obtain ⟨rfl, rfl, rfl⟩ | ⟨rfl, rfl, rfl⟩ | ⟨hn, hb', hold⟩ := hcases
    · exact ⟨c'', flag₂, rs₂, set_append_new blocks blk c' c'', hleaf', hflags.2, habove,
        fun a ha => hlt a (hsub₂ a ha)⟩
    · exact ⟨c', flag₁, rs₁, set_append_self [c''] c' hlen, hleaf, hflags.1,
        fun a ha => hle a (hsub₁ a ha), fun a ha => WithTop.coe_lt_coe.mpr (hbelow a ha)⟩
    · obtain ⟨c₁, flag', rs', hget, hin⟩ := h b lo' hi' hold
      have hblt : b < blocks.length := (List.getElem?_eq_some_iff.mp hget).1
      exact ⟨c₁, flag', rs', (set_append_ne [c''] c' hb' hblt).trans hget, hin⟩

theorem close_dirFile (idx : BTreeIndex) : idx.close.dirFile = idx.dirFile := by
  unfold BTreeIndex.close
  cases idx.leaf <;> rfl

theorem close_blocks (idx : BTreeIndex) : idx.close.leafFile.blocks = idx.leafFile.blocks := by
  unfold BTreeIndex.close
  cases idx.leaf <;> rfl

theorem close_type (idx : BTreeIndex) : idx.close.type = idx.type := by
  unfold BTreeIndex.close
  cases idx.leaf <;> rfl

theorem close_length (idx : BTreeIndex) : idx.close.length = idx.length := by
  unfold BTreeIndex.close
  cases idx.leaf <;> rfl

/-- A lookup leaves the index with the leaf for its key open. -/
theorem beforeFirst_eq {fuel blk : ℕ} {root : BTreeDir} {leaf : BTreeLeaf}
    (hsearch : (BTreeDir.new idx.dirFile 0).search idx.dirOf fuel key = .ok (blk, root))
    (hopen : BTreeLeaf.new idx.leafOf idx.close.leafFile blk key = .ok leaf) :
    idx.beforeFirst fuel key = .ok
      (BTreeIndex.withLeaf ⟨idx.type, idx.length, idx.close.leafFile, root.close, none⟩ leaf) := by
  unfold BTreeIndex.beforeFirst BTreeIndex.findLeaf BTreeIndex.openLeaf BTreeIndex.dirOf
    BTreeIndex.leafOf
  dsimp only
  rw [close_dirFile, close_type, close_length]
  unfold BTreeIndex.dirOf at hsearch
  unfold BTreeIndex.leafOf at hopen
  rw [hsearch, ok_bind]
  show (BTreeLeaf.new _ _ _ _ >>= _) = _
  rw [hopen]
  rfl

/-- The parts of an insertion. -/
theorem insert_parts {fuel blk : ℕ} {datarid : Rid} {root : BTreeDir} {leaf leaf' : BTreeLeaf}
    {e : Option DirEntry}
    (hsearch : (BTreeDir.new idx.dirFile 0).search idx.dirOf fuel key = .ok (blk, root))
    (hopen : BTreeLeaf.new idx.leafOf idx.close.leafFile blk key = .ok leaf)
    (hrun : leaf.insert idx.leafOf B datarid = .ok (leaf', e)) :
    entryOf B fuel idx key datarid = .ok e ∧ idx.insert B fuel key datarid =
      BTreeIndex.insertInDir B fuel
        ⟨idx.type, idx.length, leaf'.file.unpin leaf'.contents, root.close, none⟩ e := by
  have hfind := beforeFirst_eq hsearch hopen
  constructor
  · unfold entryOf
    rw [hfind, ok_bind]
    show (leaf.insert idx.leafOf B datarid >>= _) = _
    rw [hrun]
    rfl
  · unfold BTreeIndex.insert
    rw [hfind, ok_bind]
    show (leaf.insert idx.leafOf B datarid >>= _) = _
    rw [hrun]
    rfl

/-- An insertion whose way is clear returns. It changes one leaf, and keeps or divides the range of
that leaf. -/
theorem IndexOk.exists_leafStep (h : IndexOk B idx height ranges) (htype : idx.type ≠ .boolean)
    (hleaf : 8 + 3 * idx.leafOf.slotSize < B.bytes) (hdir : 8 + 3 * idx.dirOf.slotSize < B.bytes)
    {op : Value × Rid} (hkey : Suits idx.leafOf op.1)
    (hclear : Clear idx.dirOf idx.dirFile.blocks op.1 0 0)
    (hraised : ∀ fuel e, entryOf B fuel idx op.1 op.2 = .ok (some e) →
      Clear idx.dirOf idx.dirFile.blocks e.dataVal 1 0) :
    ∃ idx' height' ranges', (∃ n, ∀ fuel, n ≤ fuel → idx.insert B fuel op.1 op.2 = .ok idx') ∧
      idx'.type = idx.type ∧ idx'.length = idx.length ∧ IndexOk B idx' height' ranges' ∧
      LeafStep B idx.leafOf idx.leafFile.blocks idx'.leafFile.blocks (ranges 0) (ranges' 0)
        ⟨op.1, op.2⟩ := by
  have hcompares : Compares idx.dirOf op.1 := hkey.compares
  obtain ⟨root, r, hi, hsearch, hsame, -, hr, hlink, hlt⟩ :=
    search_root h.dir hcompares (minVal_le htype hcompares) hclear
  obtain ⟨c, flag, rs, hblk, hin⟩ := h.leaves r.data r.dataval hi hlink
  rw [← close_blocks idx] at hblk
  obtain ⟨leaf, leaf', e, hopen, hrun, hinserted, hfilled⟩ :=
    LeafInsertion.exists_insert_filled (by omega) hblk hin.leaf hin.chain hkey op.2
  have hparts := fun fuel hfuel => insert_parts (hsearch fuel hfuel) hopen hrun
  rw [close_blocks] at hblk hinserted hfilled
  cases leavesIn_inserted h.leaves hlink hblk hin hr hlt hinserted with
  | inl hkept =>
    obtain ⟨rfl, hleaves⟩ := hkept
    refine ⟨_, height, ranges, ⟨height + 1, fun fuel hfuel => (hparts fuel hfuel).2⟩, rfl, rfl,
      ⟨?_, hleaves⟩, ⟨r.data, r.dataval, hi, c, flag, rs, none, hlink, hr, hlt, hblk, hin, hinserted,
        hfilled, Or.inl ⟨rfl, rfl⟩⟩⟩
    show DirOk B idx.dirOf root.file.blocks (minVal idx.type) height ranges
    rw [hsame]
    exact h.dir
  | inr hdivided =>
    obtain ⟨v, rfl, hlo, hhi, hv, hleaves⟩ := hdivided
    have hfresh : ranges 0 idx.leafFile.blocks.length = none := by
      cases hrange : ranges 0 idx.leafFile.blocks.length with
      | none => rfl
      | some range =>
        obtain ⟨c', -, -, hget, -⟩ := h.leaves _ range.1 range.2 hrange
        exact absurd (List.getElem?_eq_some_iff.mp hget).1 (lt_irrefl _)
    have hok : DirOk B idx.dirOf root.close.blocks (minVal idx.type) height ranges := by
      show DirOk B idx.dirOf root.file.blocks (minVal idx.type) height ranges
      rw [hsame]
      exact h.dir
    have hway : Clear idx.dirOf root.close.blocks v 1 0 := by
      show Clear idx.dirOf root.file.blocks v 1 0
      rw [hsame]
      exact hraised (height + 1) _ (hparts _ height.lt_succ_self).1
    obtain ⟨root', e', root'', height', ranges', hinsert, hgrow, hdir', hzero⟩ :=
      insert_in_dir hdir hok (suits_minVal htype) (minVal_le htype hv.compares) hv hlink hlo hhi
        hfresh hway
    refine ⟨⟨idx.type, idx.length, leaf'.file.unpin leaf'.contents, root''.close, none⟩, height',
      ranges', ⟨height + 1, fun fuel hfuel => ?_⟩, rfl, rfl, ⟨hdir', ?_⟩,
      ⟨r.data, r.dataval, hi, c, flag, rs, _, hlink, hr, hlt, hblk, hin, hinserted, hfilled,
        Or.inr ⟨v, rfl, hlo, hhi, hzero⟩⟩⟩
    · rw [(hparts fuel hfuel).2]
      show (BTreeDir.insert idx.dirOf B ⟨v, _⟩ fuel (BTreeDir.new root.close 0) >>= _) = _
      rw [hinsert fuel hfuel, ok_bind]
      show (BTreeIndex.growRoot B idx.dirOf root' e' >>= _) = _
      rw [hgrow]
      rfl
    · rw [hzero]
      exact hleaves

/-- An insertion whose way is clear returns and keeps the ranges. -/
theorem IndexOk.exists_insert (h : IndexOk B idx height ranges) (htype : idx.type ≠ .boolean)
    (hleaf : 8 + 3 * idx.leafOf.slotSize < B.bytes) (hdir : 8 + 3 * idx.dirOf.slotSize < B.bytes)
    {op : Value × Rid} (hkey : Suits idx.leafOf op.1)
    (hclear : Clear idx.dirOf idx.dirFile.blocks op.1 0 0)
    (hraised : ∀ fuel e, entryOf B fuel idx op.1 op.2 = .ok (some e) →
      Clear idx.dirOf idx.dirFile.blocks e.dataVal 1 0) :
    ∃ idx' height' ranges', (∃ n, ∀ fuel, n ≤ fuel → idx.insert B fuel op.1 op.2 = .ok idx') ∧
      idx'.type = idx.type ∧ idx'.length = idx.length ∧ IndexOk B idx' height' ranges' := by
  obtain ⟨idx', height', ranges', hrun, htype', hlength', hok, -⟩ :=
    h.exists_leafStep htype hleaf hdir hkey hclear hraised
  exact ⟨idx', height', ranges', hrun, htype', hlength', hok⟩

theorem CleanInsert.indexOk {op : Value × Rid} (hc : CleanInsert B idx op idx')
    (h : IndexOk B idx height ranges) (htype : idx.type ≠ .boolean)
    (hleaf : 8 + 3 * idx.leafOf.slotSize < B.bytes) (hdir : 8 + 3 * idx.dirOf.slotSize < B.bytes) :
    idx'.type = idx.type ∧ idx'.length = idx.length ∧
      ∃ height' ranges', IndexOk B idx' height' ranges' := by
  obtain ⟨idx'', height', ranges', ⟨n, hrun⟩, hsame, hlength, hok⟩ :=
    h.exists_insert htype hleaf hdir hc.suits hc.clear hc.raised
  obtain ⟨n', hrun'⟩ := hc.returns
  have heq : idx' = idx'' := Except.ok.inj
    ((hrun' (max n n') (le_max_right n n')).symm.trans (hrun (max n n') (le_max_left n n')))
  rw [heq]
  exact ⟨hsame, hlength, height', ranges', hok⟩

/-- The ranges of an index after any insertions. -/
theorem indexOk_run {pins pins' : List ℕ} {ops : List (Value × Rid)} (htype : type ≠ .boolean)
    (hleaf : 8 + 3 * (leafLayout type length).slotSize < B.bytes)
    (hdir : 8 + 3 * (dirLayout type length).slotSize < B.bytes)
    (hnew : BTreeIndex.new B type length ⟨[], pins⟩ ⟨[], pins'⟩ = .ok idx)
    (hrun : Run (CleanInsert B) idx ops idx') :
    idx'.type = type ∧ idx'.length = length ∧ ∃ height ranges, IndexOk B idx' height ranges := by
  obtain ⟨idx₀, hnew₀, htype₀, hlength₀, hok₀⟩ := indexOk_new pins pins' htype hleaf
    hdir
  obtain rfl : idx = idx₀ := Except.ok.inj (hnew.symm.trans hnew₀)
  refine hrun.invariant (fun i => i.type = type ∧ i.length = length ∧
    ∃ height ranges, IndexOk B i height ranges) ?_ ⟨htype₀, hlength₀, 0, _, hok₀⟩
  rintro i op i' ⟨rfl, rfl, height, ranges, hok⟩ hc
  exact hc.indexOk hok htype hleaf hdir

/-- After any insertions that misread no page, a lookup that misreads none leads to the leaf
of the greatest entry that is at most its key. -/
theorem search_reachable {pins pins' : List ℕ} {ops : List (Value × Rid)} (htype : type ≠ .boolean)
    (hleaf : 8 + 3 * (leafLayout type length).slotSize < B.bytes)
    (hdir : 8 + 3 * (dirLayout type length).slotSize < B.bytes)
    (hnew : BTreeIndex.new B type length ⟨[], pins⟩ ⟨[], pins'⟩ = .ok idx)
    (hrun : Run (CleanInsert B) idx ops idx') (hkey : Compares (dirLayout type length) key)
    (hclear : Clear (dirLayout type length) idx'.dirFile.blocks key 0 0) :
    ∃ blk root, (∃ n, ∀ fuel, n ≤ fuel →
        (BTreeDir.new idx'.dirFile 0).search (dirLayout type length) fuel key = .ok (blk, root)) ∧
      RoutesTo idx'.dirFile.blocks key blk := by
  obtain ⟨rfl, rfl, height, ranges, hok⟩ := indexOk_run htype hleaf hdir hnew hrun
  obtain ⟨root, r, hi, hsearch, -, hentry, hr, hlink, hlt⟩ :=
    search_root hok.dir hkey (minVal_le htype hkey) hclear
  exact ⟨r.data, root, ⟨height + 1, fun fuel hfuel => hsearch fuel hfuel⟩,
    routesTo_of_link hok.dir hentry hr hlink hlt⟩

end Index

/-- A directory of one page leads nowhere else. -/
theorem reaches_level_zero {blocks : List (Contents ℕ)} {c : Contents ℕ} {b : ℕ}
    (hroot : blocks[0]? = some c) (hflag : c.flag = 0) (h : Reaches blocks 0 b) : b = 0 := by
  induction h with
  | start => rfl
  | child b c' r _ hblk hpos hr ih =>
    subst ih
    obtain rfl : c' = c := Option.some.inj (hblk.symm.trans hroot)
    exact absurd hflag hpos.ne'

theorem visits_level_zero {L : Layout} {blocks : List (Contents ℕ)} {c : Contents ℕ} {key : Value}
    {b : ℕ} (hroot : blocks[0]? = some c) (hflag : c.flag = 0) (h : Visits L blocks key 0 b) :
    b = 0 := by
  induction h with
  | start => rfl
  | child b b' c' slot _ hblk hpos _ _ ih =>
    subst ih
    obtain rfl : c' = c := Option.some.inj (hblk.symm.trans hroot)
    exact absurd hflag hpos.ne'

theorem clear_level_zero {L : Layout} {blocks : List (Contents ℕ)} {c : Contents ℕ} {key : Value}
    (hroot : blocks[0]? = some c) (hflag : c.flag = 0) (hmis : misreads c key = false) :
    Clear L blocks key 0 0 := by
  intro b c' hv hb _
  rw [visits_level_zero hroot hflag hv] at hb
  obtain rfl : c' = c := Option.some.inj (hb.symm.trans hroot)
  exact hmis

theorem clear_one {L : Layout} {blocks : List (Contents ℕ)} {c : Contents ℕ} {key : Value}
    (hroot : blocks[0]? = some c) (hflag : c.flag = 0) : Clear L blocks key 1 0 := by
  intro b c' hv hb hpos
  rw [visits_level_zero hroot hflag hv] at hb
  obtain rfl : c' = c := Option.some.inj (hb.symm.trans hroot)
  rw [hflag] at hpos
  exact absurd hpos (by decide)

/-- The index of a block size in which three records fill a leaf. -/
def smallBlock : BlockSize := ⟨57, by decide, by decide⟩

def insertedOnce : BTreeIndex :=
  ⟨.integer, 0, ⟨[page (-1) [⟨.int 5, ⟨0, 0⟩⟩]
    [some ⟨.int 0, ⟨0, 0⟩⟩, some ⟨.int 0, ⟨0, 0⟩⟩]], [0]⟩,
    ⟨[page 0 [⟨.int (-2147483648), 0⟩] [some ⟨.int 0, 0⟩, some ⟨.int 0, 0⟩, some ⟨.int 0, 0⟩]], []⟩,
    none⟩

theorem cleanInsert_once {idx : BTreeIndex}
    (hnew : BTreeIndex.new smallBlock .integer 0 ⟨[], []⟩ ⟨[], []⟩ = .ok idx) :
    CleanInsert smallBlock idx (.int 5, ⟨0, 0⟩) insertedOnce := by
  cases hnew
  refine ⟨rfl, clear_level_zero rfl rfl (by decide), fun _ _ _ => clear_one rfl rfl, 1,
    fun fuel hfuel => ?_⟩
  obtain ⟨m, rfl⟩ : ∃ m, fuel = m + 1 := ⟨fuel - 1, by omega⟩
  rfl

theorem search_reachable_once : ∃ idx blk root,
    BTreeIndex.new smallBlock .integer 0 ⟨[], []⟩ ⟨[], []⟩ = .ok idx ∧
    CleanInsert smallBlock idx (.int 5, ⟨0, 0⟩) insertedOnce ∧
    (∃ n, ∀ fuel, n ≤ fuel → (BTreeDir.new insertedOnce.dirFile 0).search (dirLayout .integer 0)
      fuel (.int 5) = .ok (blk, root)) ∧
    RoutesTo insertedOnce.dirFile.blocks (.int 5) blk := by
  obtain ⟨idx, hnew⟩ : ∃ idx, BTreeIndex.new smallBlock .integer 0 ⟨[], []⟩ ⟨[], []⟩ = .ok idx :=
    ⟨_, rfl⟩
  have hstep := cleanInsert_once hnew
  obtain ⟨blk, root, hsearch, hroutes⟩ := search_reachable (by decide) (by decide)
    (by decide) hnew (.cons hstep (.nil _))
    (show Compares (dirLayout .integer 0) (.int 5) from Suits.compares rfl)
    (clear_level_zero rfl rfl (by decide))
  exact ⟨idx, blk, root, hnew, hstep, hsearch, hroutes⟩

/-- The slot behind the entries is new and holds the key 0. The entry of the key −2 leads to
the leaf for the key 0, but the lookup leads to the other one. -/
theorem search_misread : ∃ idx idx' root,
    BTreeIndex.new smallBlock .integer 0 ⟨[], []⟩ ⟨[], []⟩ = .ok idx ∧
    Run (fun i op i' => BTreeIndex.insert smallBlock 2 i op.1 op.2 = .ok i') idx
      [(.int (-3), ⟨0, 0⟩), (.int (-2), ⟨0, 1⟩), (.int (-1), ⟨0, 2⟩)] idx' ∧
    (BTreeDir.new idx'.dirFile 0).search (dirLayout .integer 0) 2 (.int 0) = .ok (0, root) ∧
    ¬ RoutesTo idx'.dirFile.blocks (.int 0) 0 := by
  refine ⟨_, _, _, rfl, .cons rfl (.cons rfl (.cons rfl (.nil _))), rfl, ?_⟩
  rintro ⟨r, ⟨b, c, hreach, hblk, -, hr⟩, hdata, -, hgreatest⟩
  obtain rfl := reaches_level_zero rfl rfl hreach
  cases hblk
  have hentry : (.int (-2) : Value) ≤ r.dataval :=
    hgreatest ⟨.int (-2), 1⟩ ⟨0, _, .start, rfl, rfl, by decide⟩ (by decide)
  have hmem : r ∈ [(⟨.int (-2147483648), 0⟩ : Record ℕ), ⟨.int (-2), 1⟩] := hr
  cases hmem with
  | head => exact absurd hentry (by decide)
  | tail _ hmem =>
    rw [List.mem_singleton.mp hmem] at hdata
    exact absurd hdata (by decide)

end SampleDB.IndexGrowth
