import Mathlib.Data.List.ReduceOption
import SampleDB.RootGrowth

/-!
Lookups through the directory. The ranges of the leaves divide all keys, and a lookup ends
at the leaf whose range has its key as long as no page on the way is misread. This is the
leaf of the greatest entry that is at most the key.
-/
namespace SampleDB.Routing

open Words Pages Blocks Schemas Rollback KeyOrder BTreePages BTreeDirs PageLists KeyRanges
open DirGrowth RootGrowth

/-- The entries of a page. -/
def records (c : Contents ℕ) : List (Record ℕ) := (c.slots.take c.numRecs.toNat).reduceOption

/-- The pages below a page. -/
inductive Reaches (blocks : List (Contents ℕ)) (start : ℕ) : ℕ → Prop
  | start : Reaches blocks start start
  | child (b : ℕ) (c : Contents ℕ) (r : Record ℕ) : Reaches blocks start b →
      blocks[b]? = some c → 0 < c.flag → r ∈ records c → Reaches blocks start r.data

/-- The entries on level zero of the directory. -/
def Entry (blocks : List (Contents ℕ)) (r : Record ℕ) : Prop :=
  ∃ b c, Reaches blocks 0 b ∧ blocks[b]? = some c ∧ c.flag = 0 ∧ r ∈ records c

/-- The block is the one of the entry with the greatest key that is at most this one. -/
def RoutesTo (blocks : List (Contents ℕ)) (key : Value) (blk : ℕ) : Prop :=
  ∃ r, Entry blocks r ∧ r.data = blk ∧ r.dataval ≤ key ∧
    ∀ r', Entry blocks r' → r'.dataval ≤ key → r'.dataval ≤ r.dataval

section Search

variable {B : BlockSize} {L : Layout} {f : IndexFile ℕ} {least key : Value} {height blk : ℕ}
  {ranges : ℕ → Ranges} {lo : Value} {hi : WithTop Value}

theorem records_page (flag : ℤ) (rs : List (Record ℕ)) (rest : List (Option (Record ℕ))) :
    records (page flag rs rest) = rs := by
  have hlen : rs.length = (rs.map some).length := (List.length_map some).symm
  unfold records
  show ((rs.map some ++ rest).take (rs.length : ℤ).toNat).reduceOption = rs
  rw [Int.toNat_natCast, hlen, List.take_left, List.reduceOption, List.filterMap_map]
  exact List.filterMap_some

theorem Reaches.trans {blocks : List (Contents ℕ)} {a b c : ℕ} (h : Reaches blocks a b)
    (h' : Reaches blocks b c) : Reaches blocks a c := by
  induction h' with
  | start => exact h
  | child b c r _ hblk hflag hr ih => exact .child b c r ih hblk hflag hr

/-- Every page of the directory has a range on its level. -/
theorem Reaches.node {blocks : List (Contents ℕ)} {b : ℕ} (h : Reaches blocks 0 b)
    (hok : DirOk B L blocks least height ranges) :
    ∃ j ≤ height, ∃ range, ranges (j + 1) b = some range := by
  induction h with
  | start => exact ⟨height, le_rfl, _, hok.root⟩
  | child b c r _ hblk hflag hr ih =>
    obtain ⟨j, hj, range, hrange⟩ := ih
    obtain ⟨rs, rest, hpage, hnode⟩ := (hok.level j hj).node b range.1 range.2 hrange
    obtain rfl : c = page j rs rest := Option.some.inj (hblk.symm.trans hpage)
    rw [records_page] at hr
    obtain ⟨hi', hlink⟩ := hnode.links.mem hr
    have hpos : 0 < j := Int.natCast_pos.mp hflag
    obtain ⟨i, rfl⟩ : ∃ i, j = i + 1 := ⟨j - 1, by omega⟩
    exact ⟨i, by omega, _, hlink⟩

/-- An entry on level zero leads to the leaf for its key. -/
theorem Entry.link {blocks : List (Contents ℕ)} {r : Record ℕ} (h : Entry blocks r)
    (hok : DirOk B L blocks least height ranges) :
    ∃ hi, ranges 0 r.data = some (r.dataval, hi) := by
  obtain ⟨b, c, hreach, hblk, hflag, hr⟩ := h
  obtain ⟨j, hj, range, hrange⟩ := hreach.node hok
  obtain ⟨rs, rest, hpage, hnode⟩ := (hok.level j hj).node b range.1 range.2 hrange
  obtain rfl : c = page j rs rest := Option.some.inj (hblk.symm.trans hpage)
  obtain rfl : j = 0 := Int.natCast_eq_zero.mp hflag
  rw [records_page] at hr
  exact hnode.links.mem hr

/-- A lookup from a page leads to the entry for the key on level zero below the page. -/
theorem search_levels (j : ℕ)
    (hlevel : ∀ i ≤ j, LevelOk B L f.blocks i (ranges i) (ranges (i + 1)))
    (hblk : ranges (j + 1) blk = some (lo, hi)) (hkey : Compares L key) (hlo : lo ≤ key)
    (hhi : (key : WithTop Value) < hi) (hclear : Clear L f.blocks key 0 blk)
    (hpin : blk ∈ f.pins) :
    ∃ dir b xs r ys rest hi', (∀ fuel, j < fuel →
        BTreeDir.search L fuel ⟨f, blk⟩ key = .ok (r.data, dir)) ∧
      dir.file.blocks = f.blocks ∧ Reaches f.blocks blk b ∧
      f.blocks[b]? = some (page 0 (xs ++ r :: ys) rest) ∧ r.dataval ≤ key ∧
      ranges 0 r.data = some (r.dataval, hi') ∧ (key : WithTop Value) < hi' := by
  induction j generalizing f blk lo hi with
  | zero =>
    obtain ⟨rs, rest, hget, hnode⟩ := (hlevel 0 le_rfl).node blk lo hi hblk
    obtain ⟨xs, r, ys, rfl, hr, hnext, hslot⟩ :=
      hnode.slotOf hkey hlo hhi (hclear blk _ .start hget le_rfl)
    refine ⟨⟨f, blk⟩, blk, xs, r, ys, rest, nextKey ys hi, fun fuel hfuel => ?_, rfl, .start, hget,
      hr, hnode.link, hnext⟩
    obtain ⟨m, rfl⟩ : ∃ m, fuel = m + 1 := ⟨fuel - 1, by omega⟩
    unfold BTreeDir.search
    rw [findChildBlock_page hpin hget hnode hslot, ok_bind, BTreeDir.searchFrom]
    unfold BTreeDir.page
    dsimp only
    rw [contents_eq hpin hget, ok_bind]
    exact if_neg (lt_irrefl _)
  | succ j ih =>
    obtain ⟨rs, rest, hget, hnode⟩ := (hlevel (j + 1) le_rfl).node blk lo hi hblk
    have hflag : 0 < (page ((j + 1 : ℕ) : ℤ) rs rest).flag := by
      show 0 < ((j + 1 : ℕ) : ℤ)
      omega
    obtain ⟨xs, r, ys, rfl, hr, hnext, hslot⟩ :=
      hnode.slotOf hkey hlo hhi (hclear blk _ .start hget hflag.le)
    have hchild : Visits L f.blocks key blk r.data :=
      .child blk r.data _ xs.length .start hget hflag hslot (getChildNum_page hnode)
    obtain ⟨dir, b, xs', r', ys', rest', hi', hrun, hsame, hreach, hrest⟩ :=
      ih (f := (f.unpin blk).pin r.data) (fun i hi => hlevel i (Nat.le_succ_of_le hi)) hnode.link hr
        hnext (hclear.of_visits hchild) List.mem_cons_self
    have hstep : Reaches f.blocks blk r.data := .child blk _ r .start hget hflag (by
      rw [records_page]
      exact List.mem_append_right _ List.mem_cons_self)
    refine ⟨dir, b, xs', r', ys', rest', hi', fun fuel hfuel => ?_, hsame,
      hstep.trans hreach, hrest⟩
    obtain ⟨m, rfl⟩ : ∃ m, fuel = m + 1 := ⟨fuel - 1, by omega⟩
    have hnext := hrun m (by omega)
    unfold BTreeDir.search at hnext ⊢
    rw [findChildBlock_page hpin hget hnode hslot, ok_bind, BTreeDir.searchFrom]
    unfold BTreeDir.page
    dsimp only
    rw [contents_eq hpin hget, ok_bind]
    exact (if_pos hflag).trans hnext

/-- A lookup from the root leads to the leaf whose range has the key. -/
theorem search_root (hok : DirOk B L f.blocks least height ranges) (hkey : Compares L key)
    (hmin : least ≤ key) (hclear : Clear L f.blocks key 0 0) :
    ∃ root r hi', (∀ fuel, height < fuel →
        (BTreeDir.new f 0).search L fuel key = .ok (r.data, root)) ∧
      root.file.blocks = f.blocks ∧ Entry f.blocks r ∧ r.dataval ≤ key ∧
      ranges 0 r.data = some (r.dataval, hi') ∧ (key : WithTop Value) < hi' := by
  obtain ⟨root, b, xs, r, ys, rest, hi', hrun, hsame, hreach, hpage, hr, hlink, hlt⟩ :=
    search_levels (f := f.pin 0) height hok.level hok.root hkey hmin (WithTop.coe_lt_top key) hclear
      List.mem_cons_self
  refine ⟨root, r, hi', hrun, hsame, ⟨b, _, hreach, hpage, rfl, ?_⟩, hr, hlink, hlt⟩
  rw [records_page]
  exact List.mem_append_right _ List.mem_cons_self

/-- The leaf whose range has the key is the one of the greatest entry. -/
theorem routesTo_of_link (hok : DirOk B L f.blocks least height ranges) {r : Record ℕ}
    (hentry : Entry f.blocks r) (hr : r.dataval ≤ key)
    (hlink : ranges 0 r.data = some (r.dataval, hi)) (hlt : (key : WithTop Value) < hi) :
    RoutesTo f.blocks key r.data := by
  refine ⟨r, hentry, rfl, hr, fun r' hentry' hr' => ?_⟩
  obtain ⟨hi', hlink'⟩ := hentry'.link hok
  by_cases hsame : r'.data = r.data
  · rw [hsame, hlink] at hlink'
    exact (congrArg Prod.fst (Option.some.inj hlink')).ge
  · cases hok.leaves.apart r'.data r.data _ _ _ _ hlink' hlink hsame with
    | inl hle =>
      exact (WithTop.coe_lt_coe.mp ((hok.leaves.lt _ _ _ hlink').trans_le hle)).le
    | inr hle =>
      exact absurd (hlt.trans_le (hle.trans (WithTop.coe_le_coe.mpr hr'))) (lt_irrefl _)

end Search

end SampleDB.Routing
