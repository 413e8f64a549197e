import SampleDB.BTreeIndexes
import SampleDB.KeyRanges

/-!
How the directory grows. The entry of a divided page goes into the page above it, which may
be divided in turn; the root gives its entries to a new block and becomes the page above
that. A page is misread where the slot behind its entries holds the key that is looked for.
-/
namespace SampleDB.DirGrowth

open Words Pages Blocks Schemas Rollback KeyOrder BTreePages BTreeLeaves BTreeDirs PageLists
open SortedLists DirInsertion KeyRanges

/-- The pages on the way from a page to the leaf for a key. -/
inductive Visits (L : Layout) (blocks : List (Contents ℕ)) (key : Value) (start : ℕ) : ℕ → Prop
  | start : Visits L blocks key start start
  | child (b b' : ℕ) (c : Contents ℕ) (slot : ℤ) : Visits L blocks key start b →
      blocks[b]? = some c → 0 < c.flag → BTreeDir.slotOf L c key = .ok slot →
      getChildNum L c slot = .ok b' → Visits L blocks key start b'

/-- No page on the way, from a level on, is misread. -/
def Clear (L : Layout) (blocks : List (Contents ℕ)) (key : Value) (least : ℤ) (start : ℕ) : Prop :=
  ∀ b c, Visits L blocks key start b → blocks[b]? = some c → least ≤ c.flag →
    misreads c key = false

theorem Visits.trans {L : Layout} {blocks : List (Contents ℕ)} {key : Value} {a b c : ℕ}
    (h : Visits L blocks key a b) (h' : Visits L blocks key b c) : Visits L blocks key a c := by
  induction h' with
  | start => exact h
  | child b b' c slot _ hblk hflag hslot hchild ih =>
    exact .child b b' c slot ih hblk hflag hslot hchild

theorem Clear.of_visits {L : Layout} {blocks : List (Contents ℕ)} {key : Value} {least : ℤ}
    {a b : ℕ} (h : Clear L blocks key least a) (hv : Visits L blocks key a b) :
    Clear L blocks key least b :=
  fun x c hx => h x c (hv.trans hx)

/-- A page has nothing to give to the page above it, or the entry of the block that took the
keys of its range from some key on. -/
inductive Raised (L : Layout) (here : Ranges) (blk : ℕ) (lo : Value) (hi : WithTop Value) :
    Option DirEntry → Ranges → Prop
  | whole : Raised L here blk lo hi none here
  | divided (s : Value) (n : ℕ) : lo < s → (s : WithTop Value) < hi → Suits L s →
      here n = none → Raised L here blk lo hi (some ⟨s, n⟩) (divide here blk n s)

section Growth

variable {B : BlockSize} {L : Layout} {f : IndexFile ℕ} {below here : Ranges} {level blk n : ℕ}
  {lo key s : Value} {hi : WithTop Value} {rs xs ys : List (Record ℕ)} {r : Record ℕ}
  {rest : List (Option (Record ℕ))}

theorem getChildNum_page (h : IsNode B L below level lo hi (xs ++ r :: ys) rest) :
    getChildNum L (page level (xs ++ r :: ys) rest) xs.length = .ok r.data := by
  have hr : Suits L r.dataval := h.dir.suits r (List.mem_append_right _ List.mem_cons_self)
  unfold getChildNum
  rw [record_page hr.not_boolean]
  rfl

theorem findChildBlock_page (hpin : blk ∈ f.pins)
    (hblk : f.blocks[blk]? = some (page level (xs ++ r :: ys) rest))
    (h : IsNode B L below level lo hi (xs ++ r :: ys) rest)
    (hslot : BTreeDir.slotOf L (page level (xs ++ r :: ys) rest) key = .ok xs.length) :
    BTreeDir.findChildBlock L ⟨f, blk⟩ key = .ok r.data := by
  unfold BTreeDir.findChildBlock BTreeDir.page
  dsimp only
  rw [contents_eq hpin hblk, ok_bind, hslot, ok_bind, getChildNum_page h]

/-- The order leaves one place for a new entry. -/
theorem eq_divide {rs' : List (Record ℕ)} {e : Record ℕ}
    (hsorted' : StrictlySorted Record.dataval rs')
    (hsorted : StrictlySorted Record.dataval (xs ++ r :: e :: ys))
    (hperm : rs'.Perm (e :: (xs ++ r :: ys))) : rs' = xs ++ r :: e :: ys := by
  have hmiddle : (xs ++ [r] ++ e :: ys).Perm (e :: (xs ++ [r] ++ ys)) := List.perm_middle
  rw [List.append_assoc, List.append_assoc] at hmiddle
  exact List.Perm.eq_of_pairwise (fun a b _ _ hab hba => absurd (hab.trans hba) (lt_irrefl _))
    hsorted' hsorted (hperm.trans hmiddle.symm)

/-- The halves of a page that has been cut in front of a record. -/
theorem isNode_halves {y : Record ℕ} {stale stale' : List (Option (Record ℕ))} (hne : xs ≠ [])
    (hsorted : StrictlySorted Record.dataval (xs ++ y :: ys))
    (hfirst : (xs ++ y :: ys).head?.map Record.dataval = some lo)
    (hlt_hi : ∀ a ∈ xs ++ y :: ys, (a.dataval : WithTop Value) < hi)
    (hlinks : Links below (xs ++ y :: ys) hi) (hdir₁ : IsDir B L (page level xs stale) level xs)
    (hdir₂ : IsDir B L (page level (y :: ys) stale') level (y :: ys))
    (hstale : ∀ o ∈ stale, (∃ r, o = some r ∧ Suits L r.dataval) ∨ ∃ r ∈ y :: ys, o = some r)
    (hstale' : ∀ o ∈ stale', o = some (Contents.defaultRecord L)) :
    lo < y.dataval ∧ (y.dataval : WithTop Value) < hi ∧
      IsNode B L below level lo y.dataval xs stale ∧
      IsNode B L below level y.dataval hi (y :: ys) stale' := by
  obtain ⟨hlinks₁, hlinks₂⟩ := links_append.mp hlinks
  have hcross := (strictlySorted_append.mp hsorted).2.2
  have hy : Suits L y.dataval := hdir₂.suits y List.mem_cons_self
  have hfirst' : xs.head?.map Record.dataval = some lo := by
    cases xs with
    | nil => exact absurd rfl hne
    | cons a xs => exact hfirst
  refine ⟨?_, hlt_hi y (List.mem_append_right _ List.mem_cons_self),
    ⟨hdir₁, fun o ho => ?_, hfirst', fun a ha => ?_, hlinks₁⟩,
    ⟨hdir₂, fun o ho => ⟨_, hstale' o ho, Suits.default hy.not_boolean⟩, rfl,
      fun a ha => hlt_hi a (List.mem_append_right _ ha), hlinks₂⟩⟩
  · obtain ⟨a, ha, halo⟩ := Option.map_eq_some_iff.mp hfirst'
    exact halo ▸ hcross a (List.mem_of_head? ha) y List.mem_cons_self
  · cases hstale o ho with
    | inl hmem => exact hmem
    | inr hmem =>
      obtain ⟨a, ha, rfl⟩ := hmem
      exact ⟨a, rfl, hdir₂.suits a ha⟩
  · exact WithTop.coe_lt_coe.mpr (hcross a ha y List.mem_cons_self)

/-- The page takes the entry of a block below it that was divided. -/
theorem absorb (hone : 8 + 2 * L.slotSize < B.bytes)
    (h : LevelOk B L f.blocks level below here) (hhere : here blk = some (lo, hi))
    (hblk : f.blocks[blk]? = some (page level (xs ++ r :: ys) rest))
    (hnode : IsNode B L below level lo hi (xs ++ r :: ys) rest) (hpin : blk ∈ f.pins)
    (hn : below n = none) (hlo : r.dataval < s) (hhi : (s : WithTop Value) < nextKey ys hi)
    (hs : Suits L s) :
    ∃ f' e here', BTreeDir.insertEntry L B ⟨f, blk⟩ ⟨s, n⟩ = .ok (⟨f', blk⟩, e) ∧
      LevelOk B L f'.blocks level (divide below r.data n s) here' ∧
      Raised L here blk lo hi e here' ∧
      (∀ b, b ≠ blk → b < f.blocks.length → f'.blocks[b]? = f.blocks[b]?) ∧
      f.pins.Subperm f'.pins := by
  have hlen : blk < f.blocks.length := (List.getElem?_eq_some_iff.mp hblk).1
  obtain ⟨z, rest, rfl⟩ : ∃ z tail, rest = z :: tail := by
    cases rest with
    | nil => exact absurd hnode.dir.room_page (Nat.ne_of_lt (lt_capacity hnode.dir.fits))
    | cons z tail => exact ⟨z, tail, rfl⟩
  have hsorted := sorted_divide (n := n) hnode.dir.sorted hlo hhi
  have hlinks := links_divide (s := s) hnode hn
  have hnew : ∀ a ∈ xs ++ r :: ys, a.dataval ≠ s := by
    intro a ha
    obtain ⟨hxs, hys, hcross⟩ := strictlySorted_append.mp hsorted
    obtain ⟨hr, hys⟩ := List.pairwise_cons.mp hys
    cases List.mem_append.mp ha with
    | inl ha => exact (hcross a ha ⟨s, n⟩ (List.mem_cons_of_mem _ List.mem_cons_self)).ne
    | inr ha =>
      cases ha with
      | head => exact hlo.ne
      | tail _ ha => exact ((List.pairwise_cons.mp hys).1 a ha).ne'
  obtain ⟨rs', hperm, hsorted', hcases⟩ :=
    exists_insertEntry (e := ⟨s, n⟩) hone hpin hblk hnode.dir hs hnew
  have hrs' := eq_divide hsorted' hsorted hperm
  have hreadable : ∀ o ∈ rest, ∃ r, o = some r ∧ Suits L r.dataval :=
    fun o ho => hnode.readable o (List.mem_cons_of_mem _ ho)
  have hr : r.dataval < hi := hnode.lt_hi r (List.mem_append_right _ List.mem_cons_self)
  have hs_hi : (s : WithTop Value) < hi := by
    cases ys with
    | nil => exact hhi
    | cons y ys =>
      exact hhi.trans (hnode.lt_hi y
        (List.mem_append_right _ (List.mem_cons_of_mem _ List.mem_cons_self)))
  have hlt_hi : ∀ a ∈ rs', (a.dataval : WithTop Value) < hi := by
    intro a ha
    cases hperm.mem_iff.mp ha with
    | head => exact hs_hi
    | tail _ ha => exact hnode.lt_hi a ha
  have hfirst : rs'.head?.map Record.dataval = some lo := by
    rw [hrs', ← hnode.first]
    cases xs <;> rfl
  rw [← hrs'] at hlinks
  cases hcases with
  | inl hwhole =>
    have hblk' : (f.put blk (page level rs' rest)).blocks[blk]? = some (page level rs' rest) :=
      List.getElem?_set_self hlen
    have hframe : ∀ b, b ≠ blk → b < f.blocks.length →
        (f.put blk (page level rs' rest)).blocks[b]? = f.blocks[b]? :=
      fun b hb _ => List.getElem?_set_ne (Ne.symm hb)
    exact ⟨_, none, here, hwhole.1, h.change hhere hnode hn hframe hblk'
      ⟨hwhole.2, hreadable, hfirst, hlt_hi, hlinks⟩, .whole, hframe, List.Subperm.refl _⟩
  | inr hdivided =>
    obtain ⟨xs', y, ys', stale, stale', hcut, hne, hrun, hdir₁, hdir₂, hstale, hstale'⟩ := hdivided
    rw [hcut] at hsorted' hlt_hi hfirst hlinks
    obtain ⟨hlo', hhi', hnode₁, hnode₂⟩ := isNode_halves hne hsorted' hfirst hlt_hi hlinks hdir₁
      hdir₂ (fun o ho => (hstale o ho).imp (hreadable o) id) hstale'
    have hy : Suits L y.dataval := hdir₂.suits y List.mem_cons_self
    have hframe : ∀ b, b ≠ blk → b < f.blocks.length →
        (f.blocks.set blk (page level xs' stale) ++ [page level (y :: ys') stale'])[b]? =
          f.blocks[b]? := fun b hb hlt => set_append_ne _ _ hb hlt
    have hblk' : (f.blocks.set blk (page level xs' stale) ++
        [page level (y :: ys') stale'])[blk]? = some (page level xs' stale) :=
      set_append_self _ _ hlen
    have hnew' : (f.blocks.set blk (page level xs' stale) ++
        [page level (y :: ys') stale'])[f.blocks.length]? = some (page level (y :: ys') stale') :=
      set_append_new _ _ _ _
    exact ⟨_, _, _, hrun,
      h.change_divided hhere hnode hn hframe hlo' hhi' hblk' hnode₁ hnew' hnode₂,
      .divided _ _ hlo' hhi' hy h.fresh, hframe, (List.sublist_cons_self _ _).subperm⟩

end Growth

/-- The levels of the directory up to one after an insertion, and what it left alone. -/
structure Grown (B : BlockSize) (L : Layout) (f f' : IndexFile ℕ) (j : ℕ)
    (ranges' : ℕ → Ranges) : Prop where
  level : ∀ i ≤ j, LevelOk B L f'.blocks i (ranges' i) (ranges' (i + 1))
  frame : ∀ (b : ℕ) (c : Contents ℕ), f.blocks[b]? = some c → (j : ℤ) < c.flag →
    f'.blocks[b]? = some c
  pins : f.pins.Subperm f'.pins

section Levels

variable {B : BlockSize} {L : Layout} {f : IndexFile ℕ} {ranges : ℕ → Ranges} {blk c n : ℕ}
  {lo lc v : Value} {hi uc : WithTop Value}

/-- On level zero the entry of the divided leaf goes into the page. -/
theorem insert_zero (hone : 8 + 2 * L.slotSize < B.bytes)
    (hlevel : LevelOk B L f.blocks 0 (ranges 0) (ranges 1)) (hleaves : Apart (ranges 0))
    (hblk : ranges 1 blk = some (lo, hi)) (hlo : lo ≤ v) (hhi : (v : WithTop Value) < hi)
    (hc : ranges 0 c = some (lc, uc)) (hlc : lc < v) (huc : (v : WithTop Value) < uc)
    (hn : ranges 0 n = none) (hv : Suits L v) (hpin : blk ∈ f.pins) :
    ∃ f' e ranges', (∀ fuel, 0 < fuel →
        BTreeDir.insert L B ⟨v, n⟩ fuel ⟨f, blk⟩ = .ok (⟨f', blk⟩, e)) ∧
      ranges' 0 = divide (ranges 0) c n v ∧ Raised L (ranges 1) blk lo hi e (ranges' 1) ∧
      Grown B L f f' 0 ranges' := by
  obtain ⟨rs, rest, hget, hnode⟩ := hlevel.node blk lo hi hblk
  obtain ⟨xs, r, ys, rfl, hr, hnext⟩ := hnode.exists_entry hlo hhi
  have hrc : r.data = c := hleaves.eq_of_mem hnode.link hc hr hnext hlc.le huc
  have hlink := hnode.link
  rw [hrc, hc] at hlink
  have hkey : lc = r.dataval := congrArg Prod.fst (Option.some.inj hlink)
  obtain ⟨f', e, here', hrun, hok, hraised, hframe, hpins⟩ :=
    absorb hone hlevel hblk hget hnode hpin hn (hkey ▸ hlc) hnext hv
  rw [hrc] at hok
  refine ⟨f', e, Function.update (Function.update ranges 0 (divide (ranges 0) c n v)) 1 here',
    fun fuel hfuel => ?_, ?_, ?_, ?_⟩
  · obtain ⟨m, rfl⟩ : ∃ m, fuel = m + 1 := ⟨fuel - 1, by omega⟩
    rw [BTreeDir.insert]
    unfold BTreeDir.page
    dsimp only
    rw [contents_eq hpin hget, ok_bind]
    exact (if_pos rfl).trans hrun
  · rw [Function.update_of_ne (by decide), Function.update_self]
  · rw [Function.update_self]
    exact hraised
  · refine ⟨fun i hi => ?_, fun b c hb hflag => ?_, hpins⟩
    · obtain rfl : i = 0 := Nat.le_zero.mp hi
      rw [Function.update_of_ne (by decide), Function.update_self, Function.update_self]
      exact hok
    · have hne : b ≠ blk := by
        intro heq
        rw [heq, hget] at hb
        cases hb
        exact absurd hflag (lt_irrefl _)
      exact (hframe b hne (List.getElem?_eq_some_iff.mp hb).1).trans hb

/-- One more level, whose pages are the only ones that have changed since. -/
theorem levels_succ {blocks blocks' : List (Contents ℕ)} {j : ℕ} {here : Ranges}
    (hlevel : ∀ i ≤ j, LevelOk B L blocks i (ranges i) (ranges (i + 1)))
    (hframe : ∀ (b : ℕ) (c : Contents ℕ), blocks[b]? = some c → c.flag ≠ ((j + 1 : ℕ) : ℤ) →
      blocks'[b]? = some c)
    (hok : LevelOk B L blocks' (j + 1) (ranges (j + 1)) here) :
    ∀ i ≤ j + 1, LevelOk B L blocks' i (Function.update ranges (j + 1 + 1) here i)
      (Function.update ranges (j + 1 + 1) here (i + 1)) := by
  intro i hi
  cases Nat.le_succ_iff.mp hi with
  | inl hi =>
    rw [Function.update_of_ne (by omega), Function.update_of_ne (by omega)]
    exact (hlevel i hi).frame (fun b c hb hflag => hframe b c hb (by omega))
  | inr hi =>
    rw [hi, Function.update_of_ne (by omega), Function.update_self]
    exact hok

/-- The entry goes down to level zero, and what the pages there could not take goes up. -/
theorem insert_levels (hone : 8 + 2 * L.slotSize < B.bytes) (hv : Suits L v) (j : ℕ)
    (hlevel : ∀ i ≤ j, LevelOk B L f.blocks i (ranges i) (ranges (i + 1)))
    (hleaves : Apart (ranges 0)) (hblk : ranges (j + 1) blk = some (lo, hi)) (hlo : lo ≤ v)
    (hhi : (v : WithTop Value) < hi) (hc : ranges 0 c = some (lc, uc)) (hlc : lc < v)
    (huc : (v : WithTop Value) < uc) (hn : ranges 0 n = none)
    (hclear : Clear L f.blocks v 1 blk) (hpin : blk ∈ f.pins) :
    ∃ f' e ranges', (∀ fuel, j < fuel →
        BTreeDir.insert L B ⟨v, n⟩ fuel ⟨f, blk⟩ = .ok (⟨f', blk⟩, e)) ∧
      ranges' 0 = divide (ranges 0) c n v ∧
      Raised L (ranges (j + 1)) blk lo hi e (ranges' (j + 1)) ∧ Grown B L f f' j ranges' := by
  induction j generalizing f blk lo hi with
  | zero => exact insert_zero hone (hlevel 0 le_rfl) hleaves hblk hlo hhi hc hlc huc hn hv hpin
  | succ j ih =>
    have hhere := hlevel (j + 1) le_rfl
    obtain ⟨rs, rest, hget, hnode⟩ := hhere.node blk lo hi hblk
    have hflag : (1 : ℤ) ≤ (page ((j + 1 : ℕ) : ℤ) rs rest).flag := by
      show (1 : ℤ) ≤ ((j + 1 : ℕ) : ℤ)
      omega
    obtain ⟨xs, r, ys, rfl, hr, hnext, hslot⟩ :=
      hnode.slotOf hv.compares hlo hhi (hclear blk _ .start hget hflag)
    have hchild : Visits L f.blocks v blk r.data :=
      .child blk r.data _ xs.length .start hget (by omega) hslot (getChildNum_page hnode)
    obtain ⟨f₁, e₁, ranges₁, hrun₁, hzero, hraised, hgrown⟩ := ih (f := f.pin r.data)
      (fun i hi => hlevel i (Nat.le_succ_of_le hi)) hnode.link hr hnext
      (hclear.of_visits hchild) List.mem_cons_self
    -- the page itself is not one of the pages below
    have hget₁ : f₁.blocks[blk]? = some (page ((j + 1 : ℕ) : ℤ) (xs ++ r :: ys) rest) :=
      hgrown.frame blk _ hget (by
        show (j : ℤ) < ((j + 1 : ℕ) : ℤ)
        omega)
    have hpins : f.pins.Subperm (f₁.pins.erase r.data) := by
      have h := hgrown.pins.erase r.data
      rw [show (f.pin r.data).pins = r.data :: f.pins from rfl, List.erase_cons_head] at h
      exact h
    have hpin' : blk ∈ f₁.pins.erase r.data := hpins.subset hpin
    have hhere' : LevelOk B L f₁.blocks (j + 1) (ranges (j + 1)) (ranges (j + 1 + 1)) :=
      hhere.frame (fun b c hb hflag => hgrown.frame b c hb (by
        rw [hflag]
        omega))
    have hstep : ∀ fuel, j + 1 < fuel → BTreeDir.insert L B ⟨v, n⟩ fuel ⟨f, blk⟩ =
        BTreeDir.insertReturned L B ⟨f₁.unpin r.data, blk⟩ e₁ := by
      intro fuel hfuel
      obtain ⟨m, rfl⟩ : ∃ m, fuel = m + 1 := ⟨fuel - 1, by omega⟩
      rw [BTreeDir.insert, findChildBlock_page hpin hget hnode hslot]
      unfold BTreeDir.page BTreeDir.new
      dsimp only
      rw [contents_eq hpin hget, ok_bind, ok_bind, hrun₁ m (by omega), ok_bind]
      exact if_neg (show ¬ (((j + 1 : ℕ) : ℤ) = 0) by omega)
    generalize hranges : ranges₁ (j + 1) = here₁ at hraised
    cases hraised with
    | whole =>
      refine ⟨f₁.unpin r.data, none, Function.update ranges₁ (j + 1 + 1) (ranges (j + 1 + 1)),
        fun fuel hfuel => (hstep fuel hfuel).trans rfl, ?_, ?_, ?_⟩
      · rw [Function.update_of_ne (by omega)]
        exact hzero
      · rw [Function.update_self]
        exact .whole
      · exact ⟨levels_succ hgrown.level (fun b c hb _ => hb) (hranges ▸ hhere'),
          fun b c hb hflag => hgrown.frame b c hb (by omega), hpins⟩
    | divided s m hrs hsn hs hm =>
      obtain ⟨f₂, e₂, here₂, hrun₂, hok, hraised₂, hframe, hpins₂⟩ :=
        absorb (f := f₁.unpin r.data) hone hhere' hblk hget₁ hnode hpin' hm hrs hsn hs
      have hpage : ∀ (b : ℕ) (c : Contents ℕ), f₁.blocks[b]? = some c →
          c.flag ≠ ((j + 1 : ℕ) : ℤ) → f₂.blocks[b]? = some c := by
        intro b c hb hflag
        have hne : b ≠ blk := by
          intro heq
          rw [heq, hget₁] at hb
          cases hb
          exact hflag rfl
        exact (hframe b hne (List.getElem?_eq_some_iff.mp hb).1).trans hb
      refine ⟨f₂, e₂, Function.update ranges₁ (j + 1 + 1) here₂,
        fun fuel hfuel => (hstep fuel hfuel).trans hrun₂, ?_, ?_, ?_⟩
      · rw [Function.update_of_ne (by omega)]
        exact hzero
      · rw [Function.update_self]
        exact hraised₂
      · refine ⟨levels_succ hgrown.level hpage (hranges ▸ hok), fun b c hb hflag => ?_,
          hpins.trans hpins₂⟩
        exact hpage b c (hgrown.frame b c hb (by omega)) (by omega)

end Levels

end SampleDB.DirGrowth
