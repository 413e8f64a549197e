import SampleDB.BTreeDirs
import SampleDB.PageLists
import SampleDB.SortedLists

/-!
Insertion of an entry into a page of the directory. The keys of a page stay strictly
increasing, and a page that becomes full gives its second half to a new block of the same
level.
-/
namespace SampleDB.DirInsertion

open Words Pages Blocks Schemas Rollback KeyOrder BTreePages BTreeLeaves BTreeDirs PageLists
open SortedLists

/-- A page with strictly increasing keys that has room for one more entry. -/
structure IsDir (B : BlockSize) (L : Layout) (c : Contents ℕ) (level : ℤ)
    (rs : List (Record ℕ)) : Prop extends Holds B L c level rs where
  sorted : StrictlySorted Record.dataval rs
  not_full : c.isFull L B = false

section Entries

variable {B : BlockSize} {L : Layout} {f : IndexFile ℕ} {blk : ℕ} {c : Contents ℕ} {level : ℤ}
  {rs xs ys : List (Record ℕ)} {rest : List (Option (Record ℕ))} {z : Option (Record ℕ)}

theorem isDir_page (hroom : rs.length + rest.length = capacity B L)
    (hsuits : ∀ r ∈ rs, Suits L r.dataval) (hsorted : StrictlySorted Record.dataval rs)
    (hfits : 8 + (rs.length + 1) * L.slotSize < B.bytes) :
    IsDir B L (page level rs rest) level rs :=
  ⟨⟨⟨rest, rfl⟩, (page_length level rs rest).trans hroom, hsuits⟩, hsorted,
    Bool.eq_false_iff.mpr (fun h => absurd ((isFull_page rs).mp h) (Nat.not_le_of_lt hfits))⟩

theorem IsDir.fits (h : IsDir B L c level rs) : 8 + (rs.length + 1) * L.slotSize < B.bytes := by
  apply Nat.lt_of_not_le
  intro hle
  exact absurd (h.isFull_iff.mpr hle) (Bool.eq_false_iff.mp h.not_full)

theorem IsDir.room_page (h : IsDir B L (page level rs rest) level rs) :
    rs.length + rest.length = capacity B L :=
  (page_length level rs rest).symm.trans h.room

/-- The second half of a full page moves to a new block. -/
theorem splitFull_page {blocks : List (Contents ℕ)} (pins : List ℕ) {y : Record ℕ}
    (hpin : blk ∈ pins) (hlen : blk < blocks.length)
    (hmid : xs.length = (xs ++ y :: ys).length / 2)
    (hsuits : ∀ r ∈ xs ++ y :: ys, Suits L r.dataval)
    (hroom : (xs ++ y :: ys).length + rest.length = capacity B L) :
    ∃ stale stale', BTreeDir.splitFull L B
        ⟨⟨blocks.set blk (page level (xs ++ y :: ys) rest), pins⟩, blk⟩
        (page level (xs ++ y :: ys) rest) =
        .ok (⟨⟨blocks.set blk (page level xs stale) ++ [page level (y :: ys) stale'],
          blocks.length :: pins⟩, blk⟩, some ⟨y.dataval, blocks.length⟩) ∧
      xs.length + stale.length = capacity B L ∧ (y :: ys).length + stale'.length = capacity B L ∧
      (∀ o ∈ stale, o ∈ rest ∨ ∃ r ∈ y :: ys, o = some r) ∧
      ∀ o ∈ stale', o = some (Contents.defaultRecord L) := by
  have hy : Suits L y.dataval := hsuits y (List.mem_append_right _ List.mem_cons_self)
  obtain ⟨stale, stale', hsplit, hfacts⟩ := exists_split (B := B) (L := L)
    (f := ⟨blocks.set blk (page level (xs ++ y :: ys) rest), pins⟩) xs (y :: ys) hpin
    (List.getElem?_set_self hlen) (fun r hr => hsuits r (List.mem_append_right _ hr)) hroom level
  dsimp only at hsplit
  rw [List.set_set, List.length_set] at hsplit
  have hpos : (page level (xs ++ y :: ys) rest).numRecs.tdiv 2 = xs.length := by
    rw [hmid]
    rfl
  have hget : (page level (xs ++ y :: ys) rest).getDataVal L xs.length = .ok y.dataval := by
    unfold Contents.getDataVal
    rw [record_page hy.not_boolean]
    rfl
  refine ⟨stale, stale', ?_, hfacts⟩
  unfold BTreeDir.splitFull
  dsimp only
  rw [hpos, hget, ok_bind, show (page level (xs ++ y :: ys) rest).getFlag = level from rfl, hsplit]
  rfl

/-- The entry goes in front of the ones with larger keys. -/
theorem insertEntry_eq {e : DirEntry} (hpin : blk ∈ f.pins)
    (hblk : f.blocks[blk]? = some (page level rs (z :: rest)))
    (hsuits : ∀ r ∈ rs, Suits L r.dataval) (hkey : Suits L e.dataVal) :
    BTreeDir.insertEntry L B ⟨f, blk⟩ e =
      if (page level (before Record.dataval e.dataVal rs ++
          ⟨e.dataVal, e.blockNum⟩ :: behind Record.dataval e.dataVal rs) rest).isFull L B = true
      then BTreeDir.splitFull L B ⟨f.put blk (page level (before Record.dataval e.dataVal rs ++
          ⟨e.dataVal, e.blockNum⟩ :: behind Record.dataval e.dataVal rs) rest), blk⟩
        (page level (before Record.dataval e.dataVal rs ++
          ⟨e.dataVal, e.blockNum⟩ :: behind Record.dataval e.dataVal rs) rest)
      else .ok (⟨f.put blk (page level (before Record.dataval e.dataVal rs ++
          ⟨e.dataVal, e.blockNum⟩ :: behind Record.dataval e.dataVal rs) rest), blk⟩, none) := by
  have hsuits' : ∀ a ∈ behind Record.dataval e.dataVal rs, Suits L a.dataval := fun a ha =>
    hsuits a ((List.dropWhile_sublist _).subset ha)
  have hinsert := insertRecord_page level rest
    (before Record.dataval e.dataVal rs) (behind Record.dataval e.dataVal rs) z e.blockNum hsuits'
    hkey
  rw [before_append_behind] at hinsert
  have hslot : (1 : ℤ) + (((rs.takeWhile (fun r => r.dataval < e.dataVal)).length : ℤ) - 1) =
      (before Record.dataval e.dataVal rs).length := by
    unfold before
    omega
  unfold BTreeDir.insertEntry BTreeDir.page insertDir
  dsimp only
  rw [contents_eq hpin hblk, ok_bind, findSlotBefore_page hkey.compares rs hsuits, ok_bind, hslot,
    hinsert, ok_bind]
  rfl

/-- The page with the new entry, or the two pages that share its entries. -/
theorem exists_insertEntry {e : DirEntry} (hone : 8 + 2 * L.slotSize < B.bytes)
    (hpin : blk ∈ f.pins) (hblk : f.blocks[blk]? = some (page level rs (z :: rest)))
    (h : IsDir B L (page level rs (z :: rest)) level rs) (hkey : Suits L e.dataVal)
    (hnew : ∀ r ∈ rs, r.dataval ≠ e.dataVal) :
    ∃ rs', rs'.Perm (⟨e.dataVal, e.blockNum⟩ :: rs) ∧ StrictlySorted Record.dataval rs' ∧
      (BTreeDir.insertEntry L B ⟨f, blk⟩ e = .ok (⟨f.put blk (page level rs' rest), blk⟩, none) ∧
          IsDir B L (page level rs' rest) level rs' ∨
        ∃ xs y ys stale stale', rs' = xs ++ y :: ys ∧ xs ≠ [] ∧
          BTreeDir.insertEntry L B ⟨f, blk⟩ e =
            .ok (⟨⟨f.blocks.set blk (page level xs stale) ++ [page level (y :: ys) stale'],
              f.blocks.length :: f.pins⟩, blk⟩, some ⟨y.dataval, f.blocks.length⟩) ∧
          IsDir B L (page level xs stale) level xs ∧
          IsDir B L (page level (y :: ys) stale') level (y :: ys) ∧
          (∀ o ∈ stale, o ∈ rest ∨ ∃ r ∈ y :: ys, o = some r) ∧
          ∀ o ∈ stale', o = some (Contents.defaultRecord L)) := by
  have hlen : blk < f.blocks.length := (List.getElem?_eq_some_iff.mp hblk).1
  have hrun := insertEntry_eq (B := B) hpin hblk h.suits hkey
  have hperm := insert_perm Record.dataval (⟨e.dataVal, e.blockNum⟩ : Record ℕ) rs
  have hsorted := h.sorted.insert ⟨e.dataVal, e.blockNum⟩ hnew
  dsimp only at hperm hsorted
  generalize before Record.dataval e.dataVal rs ++
    ⟨e.dataVal, e.blockNum⟩ :: behind Record.dataval e.dataVal rs = rs' at hrun hperm hsorted
  have hsuits : ∀ a ∈ rs', Suits L a.dataval := by
    intro a ha
    cases hperm.mem_iff.mp ha with
    | head => exact hkey
    | tail _ hmem => exact h.suits a hmem
  have hcount : rs'.length = rs.length + 1 := hperm.length_eq
  have hroom : rs'.length + rest.length = capacity B L := by
    have hroom := h.room_page
    rw [List.length_cons] at hroom
    omega
  refine ⟨rs', hperm, hsorted, ?_⟩
  by_cases hfull : (page level rs' rest).isFull L B = true
  · have hfits : 8 + rs'.length * L.slotSize < B.bytes := hcount ▸ h.fits
    have htwo : 2 ≤ rs'.length := by
      have hbytes := (isFull_page rs').mp hfull
      by_contra hlt
      have hmul : (rs'.length + 1) * L.slotSize ≤ 2 * L.slotSize :=
        Nat.mul_le_mul_right _ (by omega)
      omega
    obtain ⟨xs, y, ys, rfl, hmid⟩ := exists_cut (i := rs'.length / 2) (show _ < rs'.length by omega)
    obtain ⟨stale, stale', hsplit, hroom₁, hroom₂, hstale, hstale'⟩ :=
      splitFull_page f.pins hpin hlen hmid hsuits hroom
    have hpart : ∀ n, n < (xs ++ y :: ys).length → 8 + (n + 1) * L.slotSize < B.bytes :=
      fun n hn => Nat.lt_of_le_of_lt (Nat.add_le_add_left (Nat.mul_le_mul_right _ hn) 8) hfits
    obtain ⟨hxs, hys, -⟩ := strictlySorted_append.mp hsorted
    have hlength : (xs ++ y :: ys).length = xs.length + (ys.length + 1) := List.length_append
    rw [if_pos hfull] at hrun
    refine Or.inr ⟨xs, y, ys, stale, stale', rfl, ?_, hrun.trans hsplit,
      isDir_page hroom₁ (fun a ha => hsuits a (List.mem_append_left _ ha)) hxs
        (hpart _ (by omega)),
      isDir_page hroom₂ (fun a ha => hsuits a (List.mem_append_right _ ha)) hys
        (hpart _ (by rw [List.length_cons]; omega)), hstale, hstale'⟩
    intro hnil
    rw [hnil, List.length_nil] at hmid
    rw [hnil] at htwo
    omega
  · rw [if_neg hfull] at hrun
    exact Or.inl ⟨hrun, isDir_page hroom hsuits hsorted
      (Nat.lt_of_not_le (fun hle => hfull ((isFull_page rs').mpr hle)))⟩

end Entries

end SampleDB.DirInsertion
