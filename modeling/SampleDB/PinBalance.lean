import SampleDB.FileGrowth
import SampleDB.IndexGrowth

/-!
The pins of an index. Between its opening and its closing an index pins and unpins the pages
that it goes through; what stays behind is one pin on every block that was appended, apart
from the first one of the directory.
-/
namespace SampleDB.PinBalance

open Words Pages Blocks Schemas Rollback TableScans KeyOrder BTreePages BTreeLeaves BTreeDirs
open BTreeIndexes PageLists IndexGrowth FileGrowth

inductive IndexOp where
  | beforeFirst (key : Value)
  | next
  | insert (dataval : Value) (datarid : Rid)
  | remove (dataval : Value) (datarid : Rid)
  deriving DecidableEq

def step (B : BlockSize) (fuel : ℕ) (idx : BTreeIndex) : IndexOp → Result BTreeIndex
  | .beforeFirst key => idx.beforeFirst fuel key
  | .next => do return (← idx.next).2
  | .insert dataval datarid => idx.insert B fuel dataval datarid
  | .remove dataval datarid => idx.remove fuel dataval datarid

def run (B : BlockSize) (fuel : ℕ) : BTreeIndex → List IndexOp → Result BTreeIndex
  | idx, [] => .ok idx
  | idx, op :: ops => do run B fuel (← step B fuel idx op) ops

/-- An index is opened, used and closed. -/
def session (B : BlockSize) (fuel : ℕ) (type : FieldType) (length : ℕ) (leafFile : IndexFile Rid)
    (dirFile : IndexFile ℕ) (ops : List IndexOp) : Result BTreeIndex := do
  let idx ← BTreeIndex.new B type length leafFile dirFile
  return (← run B fuel idx ops).close

/-- The leaf that an insertion of the key goes to. -/
def leafFor (fuel : ℕ) (idx : BTreeIndex) (key : Value) : Result BTreeLeaf := do
  (← idx.beforeFirst fuel key).currentLeaf

/-- The leaf is not one with overflow blocks and a larger first key, and it does not become
full with one more record. -/
def HasRoom (B : BlockSize) (L : Layout) (leaf : BTreeLeaf) : Prop :=
  leaf.isBelow L = .ok false ∧ ∀ c, leaf.page = .ok c → slotPos L (c.numRecs + 1 + 1) < B.bytes

/-- The operation is no insertion into a leaf without room. -/
def Fits (B : BlockSize) (fuel : ℕ) (idx : BTreeIndex) : IndexOp → Prop
  | .insert dataval _ => ∀ leaf, leafFor fuel idx dataval = .ok leaf → HasRoom B idx.leafOf leaf
  | _ => True

def AllFit (B : BlockSize) (fuel : ℕ) : BTreeIndex → List IndexOp → Prop
  | _, [] => True
  | idx, op :: ops => Fits B fuel idx op ∧
      ∀ idx', step B fuel idx op = .ok idx' → AllFit B fuel idx' ops

section Directories

variable {L : Layout} {B : BlockSize} {f f' : IndexFile ℕ} {dir dir' : BTreeDir} {d : DirEntry}
  {r : Option DirEntry} {blk child fuel : ℕ} {key : Value}

theorem unpin_pin {P : Type} (f : IndexFile P) (blk : ℕ) : (f.pin blk).unpin blk = f := by
  unfold IndexFile.pin IndexFile.unpin
  dsimp only
  rw [List.erase_cons_head]

/-- Every page that the search leaves is closed. -/
theorem searchFrom_close (h : BTreeDir.searchFrom L key fuel dir child = .ok (blk, dir')) :
    dir'.close = dir.close := by
  induction fuel generalizing dir child with
  | zero => cases h
  | succ fuel ih =>
    obtain ⟨c, -, hrest⟩ := bind_eq_ok.mp h
    by_cases hflag : c.getFlag > 0
    · obtain ⟨next, -, hrest⟩ := bind_eq_ok.mp ((if_pos hflag).symm.trans hrest)
      exact (ih hrest).trans (unpin_pin _ _)
    · cases (if_neg hflag).symm.trans hrest
      rfl

theorem search_close (h : (BTreeDir.new f 0).search L fuel key = .ok (blk, dir')) :
    dir'.close = f := by
  obtain ⟨child, -, hrest⟩ := bind_eq_ok.mp h
  exact (searchFrom_close hrest).trans (unpin_pin f 0)

theorem insertReturned_appended {e : Option DirEntry}
    (h : dir.insertReturned L B e = .ok (dir', r)) :
    dir'.contents = dir.contents ∧ ∃ k, Appended dir.file dir'.file k := by
  cases e with
  | none =>
    cases h
    exact ⟨rfl, 0, .refl _⟩
  | some e =>
    obtain ⟨hcontents, -, happended⟩ := insertEntry_ok h
    exact ⟨hcontents, _, happended⟩

theorem insert_appended (h : BTreeDir.insert L B d fuel dir = .ok (dir', r)) :
    dir'.contents = dir.contents ∧ ∃ k, Appended dir.file dir'.file k := by
  induction fuel generalizing dir dir' r with
  | zero => cases h
  | succ fuel ih =>
    rw [BTreeDir.insert] at h
    obtain ⟨c, -, hrest⟩ := bind_eq_ok.mp h
    by_cases hflag : c.getFlag = 0
    · obtain ⟨hcontents, -, happended⟩ := insertEntry_ok ((if_pos hflag).symm.trans hrest)
      exact ⟨hcontents, _, happended⟩
    · obtain ⟨childBlk, -, hrest⟩ := bind_eq_ok.mp ((if_neg hflag).symm.trans hrest)
      obtain ⟨⟨child, e⟩, hchild, hreturned⟩ := bind_eq_ok.mp hrest
      obtain ⟨hcontents, k, hk⟩ := ih hchild
      obtain ⟨hcontents', m, hm⟩ := insertReturned_appended hreturned
      have hclose : Appended dir.file child.close k := by
        unfold BTreeDir.close
        rw [hcontents]
        exact hk.unpin
      exact ⟨hcontents', k + m, hclose.trans hm⟩

theorem makeNewRoot_appended (h : dir.makeNewRoot L B d = .ok dir') :
    dir'.contents = dir.contents ∧ ∃ k, Appended dir.file dir'.file k := by
  obtain ⟨c, -, hrest⟩ := bind_eq_ok.mp h
  obtain ⟨firstVal, -, hrest⟩ := bind_eq_ok.mp hrest
  obtain ⟨⟨newBlk, file⟩, hsplit, hrest⟩ := bind_eq_ok.mp hrest
  obtain ⟨⟨dir₁, r₁⟩, hfirst, hrest⟩ := bind_eq_ok.mp hrest
  obtain ⟨⟨dir₂, r₂⟩, hsecond, hrest⟩ := bind_eq_ok.mp hrest
  obtain ⟨file', hflag, hend⟩ := bind_eq_ok.mp hrest
  cases hend
  obtain ⟨-, -, happended, -⟩ := split_ok hsplit
  obtain ⟨hcontents₁, -, happended₁⟩ := insertEntry_ok hfirst
  obtain ⟨hcontents₂, -, happended₂⟩ := insertEntry_ok hsecond
  exact ⟨hcontents₂.trans hcontents₁, _,
    ((happended.trans happended₁).trans happended₂).trans (setFlag_appended hflag)⟩

end Directories

section Leaves

variable {L : Layout} {B : BlockSize} {leaf leaf' : BTreeLeaf} {e : Option DirEntry}
  {datarid : Rid} {c c' : Contents Rid} {fuel : ℕ} {found : Bool}

/-- The page that a leaf goes on to takes the place of the one that it leaves. -/
theorem tryOverflow_close (h : leaf.tryOverflow L = .ok (found, leaf')) :
    leaf'.close = leaf.close := by
  obtain ⟨c, -, hrest⟩ := bind_eq_ok.mp h
  obtain ⟨firstKey, -, hrest⟩ := bind_eq_ok.mp hrest
  obtain ⟨same, -, hrest⟩ := bind_eq_ok.mp hrest
  by_cases hstay : (!same || decide (c.getFlag < 0)) = true
  · cases (if_pos hstay).symm.trans hrest
    rfl
  · cases (if_neg hstay).symm.trans hrest
    exact unpin_pin _ _

theorem next_close (h : leaf.next L = .ok (found, leaf')) : leaf'.close = leaf.close := by
  obtain ⟨here, -, hrest⟩ := bind_eq_ok.mp h
  by_cases hhere : here = true
  · cases (if_pos hhere).symm.trans hrest
    rfl
  · have hover : BTreeLeaf.tryOverflow L _ = .ok (found, leaf') := (if_neg hhere).symm.trans hrest
    exact (tryOverflow_close hover).trans rfl

theorem close_put (leaf : BTreeLeaf) (c : Contents Rid) :
    Appended leaf.close ((leaf.file.put leaf.contents c).unpin leaf.contents) 0 :=
  ⟨List.length_set, List.Perm.refl _⟩

theorem remove_close (h : leaf.remove L datarid fuel = .ok leaf') :
    Appended leaf.close leaf'.close 0 := by
  induction fuel generalizing leaf with
  | zero => cases h
  | succ fuel ih =>
    obtain ⟨⟨found, leaf₁⟩, hnext, hrest⟩ := bind_eq_ok.mp h
    rw [← next_close hnext]
    by_cases hfound : found = true
    · obtain ⟨rid, -, hrest⟩ := bind_eq_ok.mp ((if_pos hfound).symm.trans hrest)
      by_cases hrid : rid = datarid
      · obtain ⟨page, -, hrest⟩ := bind_eq_ok.mp ((if_pos hrid).symm.trans hrest)
        obtain ⟨c, -, hend⟩ := bind_eq_ok.mp hrest
        cases hend
        exact close_put leaf₁ c
      · exact ih ((if_neg hrid).symm.trans hrest)
    · cases (if_neg hfound).symm.trans hrest
      exact .refl _

theorem setRecord_numRecs {slot : ℤ} {v : Value} {d : Rid} (h : c.setRecord L slot v d = .ok c') :
    c'.numRecs = c.numRecs := by
  obtain ⟨w, -, hrest⟩ := bind_eq_ok.mp h
  by_cases hslot : 0 ≤ slot ∧ slot < c.slots.length
  · cases (if_pos hslot).symm.trans hrest
    rfl
  · cases (if_neg hslot).symm.trans hrest

theorem insertLeaf_numRecs {slot : ℤ} {v : Value} {d : Rid}
    (h : insertLeaf L c slot v d = .ok c') : c'.numRecs = c.numRecs + 1 := by
  obtain ⟨c₁, hinsert, hset⟩ := bind_eq_ok.mp h
  obtain ⟨c₂, -, hend⟩ := bind_eq_ok.mp hinsert
  cases hend
  exact setRecord_numRecs hset

/-- The page of the leaf has one record more, and its blocks and pins are the same. -/
theorem insertAt_ok {slot : ℤ} (h : leaf.insertAt L slot datarid = .ok leaf') :
    leaf'.contents = leaf.contents ∧ Appended leaf.file leaf'.file 0 ∧
      ∃ c c', leaf.page = .ok c ∧ leaf'.page = .ok c' ∧ c'.numRecs = c.numRecs + 1 := by
  obtain ⟨c, hpage, hrest⟩ := bind_eq_ok.mp h
  obtain ⟨c', hinsert, hend⟩ := bind_eq_ok.mp hrest
  cases hend
  obtain ⟨hpin, hblk⟩ := contents_ok hpage
  have hlen : leaf.contents < leaf.file.blocks.length := (List.getElem?_eq_some_iff.mp hblk).1
  refine ⟨rfl, appended_put _ _ _, c, c', hpage, ?_, insertLeaf_numRecs hinsert⟩
  exact contents_eq (f := leaf.file.put leaf.contents c') hpin (List.getElem?_set_self hlen)

theorem splitFull_appended (h : leaf.splitFull L B = .ok (leaf', e)) :
    leaf'.contents = leaf.contents ∧ Appended leaf.file leaf'.file 1 := by
  obtain ⟨c, -, hrest⟩ := bind_eq_ok.mp h
  obtain ⟨firstKey, -, hrest⟩ := bind_eq_ok.mp hrest
  obtain ⟨lastKey, -, hrest⟩ := bind_eq_ok.mp hrest
  obtain ⟨same, -, hrest⟩ := bind_eq_ok.mp hrest
  by_cases hsame : same = true
  · obtain ⟨⟨newBlk, file⟩, hsplit, hrest⟩ := bind_eq_ok.mp ((if_pos hsame).symm.trans hrest)
    obtain ⟨file', hflag, hend⟩ := bind_eq_ok.mp hrest
    cases hend
    obtain ⟨-, -, happended, -⟩ := split_ok hsplit
    exact ⟨rfl, happended.trans (setFlag_appended hflag)⟩
  · obtain ⟨⟨splitPos, splitKey⟩, -, hrest⟩ := bind_eq_ok.mp ((if_neg hsame).symm.trans hrest)
    obtain ⟨⟨newBlk, file⟩, hsplit, hend⟩ := bind_eq_ok.mp hrest
    cases hend
    obtain ⟨-, -, happended, -⟩ := split_ok hsplit
    exact ⟨rfl, happended⟩

theorem insertBelow_appended (h : leaf.insertBelow L B datarid = .ok (leaf', e)) :
    leaf'.contents = leaf.contents ∧ Appended leaf.file leaf'.file 1 := by
  obtain ⟨c, -, hrest⟩ := bind_eq_ok.mp h
  obtain ⟨firstVal, -, hrest⟩ := bind_eq_ok.mp hrest
  obtain ⟨⟨newBlk, file⟩, hsplit, hrest⟩ := bind_eq_ok.mp hrest
  obtain ⟨file', hflag, hrest⟩ := bind_eq_ok.mp hrest
  obtain ⟨leaf₁, hinsert, hend⟩ := bind_eq_ok.mp hrest
  cases hend
  obtain ⟨-, -, happended, -⟩ := split_ok hsplit
  obtain ⟨hcontents, hput, -⟩ := insertAt_ok hinsert
  exact ⟨hcontents, (happended.trans (setFlag_appended hflag)).trans hput⟩

theorem isFull_iff : c.isFull L B = true ↔ ¬ slotPos L (c.numRecs + 1) < B.bytes := by
  unfold Contents.isFull
  rw [decide_eq_true_iff, not_lt]

/-- An insertion into a leaf appends a block exactly when the leaf has no room. -/
theorem insert_leaf_appended (h : leaf.insert L B datarid = .ok (leaf', e)) :
    leaf'.contents = leaf.contents ∧ ∃ k, Appended leaf.file leaf'.file k ∧
      (k = 0 ↔ HasRoom B L leaf) ∧ (k = 0 → e = none) := by
  obtain ⟨below, hbelow, hrest⟩ := bind_eq_ok.mp h
  cases below with
  | true =>
    obtain ⟨hcontents, happended⟩ := insertBelow_appended ((if_pos rfl).symm.trans hrest)
    refine ⟨hcontents, 1, happended, ⟨fun hk => absurd hk Nat.one_ne_zero, fun hroom => ?_⟩,
      fun hk => absurd hk Nat.one_ne_zero⟩
    cases hbelow.symm.trans hroom.1
  | false =>
    obtain ⟨leaf₁, hinsert, hrest⟩ := bind_eq_ok.mp hrest
    obtain ⟨c', hpage', hrest⟩ := bind_eq_ok.mp hrest
    obtain ⟨hcontents, hput, c₀, c₁, hpage, hpage₁, hnum⟩ := insertAt_ok hinsert
    cases hpage'.symm.trans hpage₁
    have hroom : HasRoom B L leaf ↔ c'.isFull L B = false := by
      rw [Bool.eq_false_iff, Ne, isFull_iff, not_not, hnum]
      constructor
      · rintro ⟨-, hfits⟩
        exact hfits c₀ hpage
      · intro hfits
        refine ⟨hbelow, fun c hc => ?_⟩
        cases hpage.symm.trans hc
        exact hfits
    cases hfull : c'.isFull L B with
    | true =>
      obtain ⟨hcontents', happended⟩ := splitFull_appended ((if_pos hfull).symm.trans hrest)
      refine ⟨hcontents'.trans hcontents, 1, hput.trans happended,
        ⟨fun hk => absurd hk Nat.one_ne_zero, fun h => ?_⟩, fun hk => absurd hk Nat.one_ne_zero⟩
      cases hfull.symm.trans (hroom.mp h)
    | false =>
      have hnot : ¬ c'.isFull L B = true := Bool.eq_false_iff.mp hfull
      cases (if_neg hnot).symm.trans hrest
      exact ⟨hcontents, 0, hput, ⟨fun _ => hroom.mpr hfull, fun _ => rfl⟩, fun _ => rfl⟩

end Leaves

section Indexes

variable {B : BlockSize} {idx idx' : BTreeIndex} {leaf leaf' : BTreeLeaf} {key : Value}
  {datarid : Rid} {e : Option DirEntry} {op : IndexOp} {ops : List IndexOp} {fuel blk length : ℕ}
  {type : FieldType} {leafFile : IndexFile Rid} {dirFile : IndexFile ℕ}

theorem findLeaf_ok (h : idx.findLeaf fuel key = .ok (blk, idx')) : idx' = idx := by
  obtain ⟨⟨blk', root⟩, hsearch, hend⟩ := bind_eq_ok.mp h
  cases hend
  rw [search_close hsearch]

/-- The leaf that is opened is the only one that is open. -/
theorem beforeFirst_ok (h : idx.beforeFirst fuel key = .ok idx') :
    ∃ leaf blk, idx' = idx.close.withLeaf leaf ∧ leaf.contents = blk ∧
      leaf.file = idx.close.leafFile.pin blk := by
  obtain ⟨⟨blk, idx₁⟩, hfind, hrest⟩ := bind_eq_ok.mp h
  obtain rfl := findLeaf_ok hfind
  obtain ⟨leaf, hopen, hend⟩ := bind_eq_ok.mp hrest
  obtain ⟨c, -, hrest⟩ := bind_eq_ok.mp hopen
  obtain ⟨slot, -, hleaf⟩ := bind_eq_ok.mp hrest
  cases hend
  cases hleaf
  exact ⟨_, blk, rfl, rfl, rfl⟩

theorem currentLeaf_withLeaf (idx : BTreeIndex) (leaf : BTreeLeaf) :
    (idx.withLeaf leaf).currentLeaf = .ok leaf := rfl

theorem close_withLeaf (idx : BTreeIndex) (leaf : BTreeLeaf) :
    (idx.withLeaf leaf).close.leafFile = leaf.close := rfl

theorem currentLeaf_close (h : idx.currentLeaf = .ok leaf) : idx.close.leafFile = leaf.close := by
  unfold BTreeIndex.currentLeaf at h
  unfold BTreeIndex.close
  cases hleaf : idx.leaf with
  | none =>
    rw [hleaf] at h
    cases h
  | some cursor =>
    rw [hleaf] at h
    cases h
    rfl

theorem growRoot_appended {L : Layout} {root root' : BTreeDir}
    (h : BTreeIndex.growRoot B L root e = .ok root') :
    root'.contents = root.contents ∧ ∃ k, Appended root.file root'.file k := by
  cases e with
  | none =>
    cases h
    exact ⟨rfl, 0, .refl _⟩
  | some e => exact makeNewRoot_appended h

theorem insertInDir_ok (h : idx.insertInDir B fuel e = .ok idx') :
    idx'.leaf = idx.leaf ∧ idx'.leafFile = idx.leafFile ∧
      ∃ m, Appended idx.dirFile idx'.dirFile m ∧ (e = none → m = 0) := by
  cases e with
  | none =>
    cases h
    exact ⟨rfl, rfl, 0, .refl _, fun _ => rfl⟩
  | some e =>
    obtain ⟨⟨root, r⟩, hinsert, hrest⟩ := bind_eq_ok.mp h
    obtain ⟨root', hgrow, hend⟩ := bind_eq_ok.mp hrest
    cases hend
    obtain ⟨hcontents, k, hk⟩ := insert_appended hinsert
    obtain ⟨hcontents', m, hm⟩ := growRoot_appended hgrow
    refine ⟨rfl, rfl, k + m, ?_, fun h => by cases h⟩
    show Appended idx.dirFile (root'.file.unpin root'.contents) (k + m)
    rw [hcontents', hcontents]
    exact (hk.trans hm).unpin

/-- An insertion leaves a pin on every block that it appends, and it appends none exactly
when its leaf has room. -/
theorem insert_index_appended (h : idx.insert B fuel key datarid = .ok idx') :
    ∃ k m, Appended idx.close.leafFile idx'.close.leafFile k ∧
      Appended idx.dirFile idx'.dirFile m ∧ (k = 0 ↔ Fits B fuel idx (.insert key datarid)) ∧
      (k = 0 → m = 0) := by
  obtain ⟨idx₁, hbefore, hrest⟩ := bind_eq_ok.mp h
  obtain ⟨leaf, blk, rfl, hblk, hfile⟩ := beforeFirst_ok hbefore
  rw [currentLeaf_withLeaf, ok_bind] at hrest
  obtain ⟨⟨leaf', e⟩, hinsert, hrest⟩ := bind_eq_ok.mp hrest
  obtain ⟨hcontents, k, happended, hroom, hnone⟩ := insert_leaf_appended hinsert
  obtain ⟨hleaf, hleafFile, m, hm, hzero⟩ := insertInDir_ok hrest
  have hclose : idx'.close.leafFile = leaf'.close := by
    unfold BTreeIndex.close
    rw [hleaf]
    exact hleafFile
  have hlayout : (idx.close.withLeaf leaf).leafOf = idx.leafOf := by
    unfold BTreeIndex.leafOf
    show leafLayout idx.close.type idx.close.length = _
    rw [close_type, close_length]
  refine ⟨k, m, ?_, ?_, ?_, fun hk => hzero (hnone hk)⟩
  · rw [hclose]
    show Appended idx.close.leafFile (leaf'.file.unpin leaf'.contents) k
    rw [hcontents, hblk]
    exact (hfile ▸ happended).unpin
  · have hdir : ((idx.close.withLeaf leaf).withLeaf leaf').close.dirFile = idx.dirFile :=
      close_dirFile idx
    exact hdir ▸ hm
  · rw [hroom, hlayout]
    have hfor : leafFor fuel idx key = .ok leaf := by
      unfold leafFor
      rw [hbefore]
      rfl
    constructor
    · intro hfits leaf₁ hleaf₁
      cases hfor.symm.trans hleaf₁
      exact hfits
    · intro hfits
      exact hfits leaf hfor

theorem step_appended (h : step B fuel idx op = .ok idx') :
    ∃ k m, Appended idx.close.leafFile idx'.close.leafFile k ∧
      Appended idx.dirFile idx'.dirFile m ∧ (k = 0 ↔ Fits B fuel idx op) ∧ (k = 0 → m = 0) := by
  cases op with
  | beforeFirst key =>
    obtain ⟨leaf, blk, rfl, hblk, hfile⟩ := beforeFirst_ok h
    have hclose : (idx.close.withLeaf leaf).close.leafFile = idx.close.leafFile := by
      rw [close_withLeaf]
      unfold BTreeLeaf.close
      rw [hblk, hfile, unpin_pin]
    refine ⟨0, 0, ?_, ?_, ⟨fun _ => trivial, fun _ => rfl⟩, fun _ => rfl⟩
    · rw [hclose]
      exact .refl _
    · have hdir : (idx.close.withLeaf leaf).dirFile = idx.dirFile := close_dirFile idx
      rw [hdir]
      exact .refl _
  | next =>
    obtain ⟨⟨found, idx₁⟩, hnext, hend⟩ := bind_eq_ok.mp h
    cases hend
    obtain ⟨leaf, hleaf, hrest⟩ := bind_eq_ok.mp hnext
    obtain ⟨⟨found', leaf'⟩, hstep, hend⟩ := bind_eq_ok.mp hrest
    cases hend
    refine ⟨0, 0, ?_, .refl _, ⟨fun _ => trivial, fun _ => rfl⟩, fun _ => rfl⟩
    rw [close_withLeaf, next_close hstep, currentLeaf_close hleaf]
    exact .refl _
  | insert key datarid => exact insert_index_appended h
  | remove key datarid =>
    obtain ⟨idx₁, hbefore, hrest⟩ := bind_eq_ok.mp h
    obtain ⟨leaf, blk, rfl, hblk, hfile⟩ := beforeFirst_ok hbefore
    rw [currentLeaf_withLeaf, ok_bind] at hrest
    obtain ⟨leaf', hremove, hend⟩ := bind_eq_ok.mp hrest
    cases hend
    have hclose : leaf.close = idx.close.leafFile := by
      unfold BTreeLeaf.close
      rw [hblk, hfile, unpin_pin]
    refine ⟨0, 0, hclose ▸ remove_close hremove, ?_, ⟨fun _ => trivial, fun _ => rfl⟩, fun _ => rfl⟩
    have hdir : ((idx.close.withLeaf leaf).withLeaf leaf').close.dirFile = idx.dirFile :=
      close_dirFile idx
    rw [hdir]
    exact .refl _

/-- The blocks that a run appends, by induction on the operations. -/
theorem run_appended (h : run B fuel idx ops = .ok idx') :
    ∃ k m, Appended idx.close.leafFile idx'.close.leafFile k ∧
      Appended idx.dirFile idx'.dirFile m ∧ (k = 0 ↔ AllFit B fuel idx ops) ∧ (k = 0 → m = 0) := by
  induction ops generalizing idx with
  | nil =>
    cases h
    exact ⟨0, 0, .refl _, .refl _, ⟨fun _ => trivial, fun _ => rfl⟩, fun _ => rfl⟩
  | cons op ops ih =>
    obtain ⟨idx₁, hstep, hrest⟩ := bind_eq_ok.mp h
    obtain ⟨k, m, hk, hm, hfits, hzero⟩ := step_appended hstep
    obtain ⟨k', m', hk', hm', hfits', hzero'⟩ := ih hrest
    refine ⟨k + k', m + m', hk.trans hk', hm.trans hm', ?_, fun hsum => ?_⟩
    · rw [Nat.add_eq_zero_iff, hfits, hfits']
      constructor
      · rintro ⟨hop, hops⟩
        refine ⟨hop, fun idx₂ hidx₂ => ?_⟩
        cases hstep.symm.trans hidx₂
        exact hops
      · rintro ⟨hop, hops⟩
        exact ⟨hop, hops idx₁ hstep⟩
    · obtain ⟨hk0, hk0'⟩ := Nat.add_eq_zero_iff.mp hsum
      rw [hzero hk0, hzero' hk0']

/-- The first leaf of an index stays pinned. -/
theorem openLeaves_appended {L : Layout} {file file' : IndexFile Rid}
    (h : BTreeIndex.openLeaves B L file = .ok file') :
    ∃ k, Appended file file' k ∧ (k = 0 ↔ file.blocks ≠ []) := by
  by_cases hempty : file.blocks.length = 0
  · obtain ⟨c, -, hend⟩ := bind_eq_ok.mp ((if_pos hempty).symm.trans h)
    cases hend
    have hnil : file.blocks = [] := List.length_eq_zero_iff.mp hempty
    refine ⟨1, ⟨?_, ?_⟩, ⟨fun hk => absurd hk Nat.one_ne_zero, fun hne => absurd hnil hne⟩⟩
    · show ((file.blocks ++ [Contents.zero L B]).set 0 _).length = _
      rw [List.length_set, List.length_append, List.length_singleton]
    · rw [hempty]
      exact List.Perm.refl _
  · cases (if_neg hempty).symm.trans h
    refine ⟨0, .refl _, ⟨fun _ hnil => hempty (hnil ▸ rfl), fun _ => rfl⟩⟩

theorem openDir_pins {L : Layout} {file file' : IndexFile ℕ}
    (h : BTreeIndex.openDir B L file = .ok file') : file'.pins = file.pins := by
  by_cases hempty : file.blocks.length = 0
  · obtain ⟨c, -, hrest⟩ := bind_eq_ok.mp ((if_pos hempty).symm.trans h)
    obtain ⟨c', -, hend⟩ := bind_eq_ok.mp hrest
    cases hend
    have herase : (0 :: file.pins).erase 0 = file.pins := List.erase_cons_head _ _
    exact herase
  · cases (if_neg hempty).symm.trans h
    rfl

/-- A session leaves the pins as they were if and only if the index had a leaf when it was
opened and every insertion finds room in its leaf. -/
theorem pins_neutral_iff (h : session B fuel type length leafFile dirFile ops = .ok idx') :
    (idx'.leafFile.pins.Perm leafFile.pins ∧ idx'.dirFile.pins.Perm dirFile.pins) ↔
      leafFile.blocks ≠ [] ∧
        ∀ idx, BTreeIndex.new B type length leafFile dirFile = .ok idx → AllFit B fuel idx ops := by
  obtain ⟨idx, hnew, hrest⟩ := bind_eq_ok.mp h
  obtain ⟨idx₁, hrun, hend⟩ := bind_eq_ok.mp hrest
  cases hend
  obtain ⟨k, m, hk, hm, hfits, hzero⟩ := run_appended hrun
  obtain ⟨leafFile', hleaves, hrest⟩ := bind_eq_ok.mp hnew
  obtain ⟨dirFile', hdir, hend⟩ := bind_eq_ok.mp hrest
  cases hend
  obtain ⟨j, hj, hopen⟩ := openLeaves_appended hleaves
  have hleafPins := (hj.trans hk).pins_iff
  have hdirPins : idx₁.close.dirFile.pins.Perm dirFile.pins ↔ m = 0 := by
    rw [← openDir_pins hdir, close_dirFile]
    exact hm.pins_iff
  rw [hleafPins, hdirPins, Nat.add_eq_zero_iff, hopen, hfits]
  constructor
  · rintro ⟨⟨hne, hall⟩, -⟩
    refine ⟨hne, fun idx₂ hidx₂ => ?_⟩
    cases hnew.symm.trans hidx₂
    exact hall
  · rintro ⟨hne, hall⟩
    exact ⟨⟨hne, hall _ hnew⟩, hzero (hfits.mpr (hall _ hnew))⟩

end Indexes

/-- An index with one leaf and a root. -/
def leaves : IndexFile Rid := ⟨[page (-1) [] (List.replicate 3 (some ⟨.int 0, ⟨0, 0⟩⟩))], []⟩

def root : IndexFile ℕ :=
  ⟨[page 0 [⟨.int (-2147483648), 0⟩] (List.replicate 3 (some ⟨.int 0, 0⟩))], []⟩

def fourOps : List IndexOp :=
  [.insert (.int 5) ⟨0, 0⟩, .beforeFirst (.int 5), .next, .remove (.int 5) ⟨0, 0⟩]

theorem pins_neutral_small : ∃ idx,
    session smallBlock 1 .integer 0 leaves root fourOps = .ok idx ∧
    idx.leafFile.pins.Perm leaves.pins ∧ idx.dirFile.pins.Perm root.pins := by
  obtain ⟨idx, hrun⟩ : ∃ idx, session smallBlock 1 .integer 0 leaves root fourOps = .ok idx :=
    ⟨_, rfl⟩
  refine ⟨idx, hrun, (pins_neutral_iff hrun).mpr ⟨by decide, fun idx hidx => ?_⟩⟩
  cases hidx
  refine ⟨fun leaf hleaf => ?_, fun idx _ => ⟨trivial, fun idx _ => ⟨trivial, fun idx _ =>
    ⟨trivial, fun idx _ => trivial⟩⟩⟩⟩
  cases hleaf
  refine ⟨rfl, fun c hc => ?_⟩
  cases hc
  decide

/-- The first leaf of a new index stays pinned. -/
theorem not_neutral_new : ∃ idx, session smallBlock 1 .integer 0 ⟨[], []⟩ ⟨[], []⟩ [] = .ok idx ∧
    ¬ idx.leafFile.pins.Perm [] := by
  refine ⟨_, rfl, ?_⟩
  intro hperm
  exact absurd hperm.length_eq (by decide)

end SampleDB.PinBalance
