import Mathlib.Data.List.TakeWhile
import SampleDB.DirGrowth

/-!
A new root over the directory. The old root gives its entries to a new block, and the levels
of the directory stay as they are below one more.
-/
namespace SampleDB.RootGrowth

open Words Pages Blocks Schemas Rollback TableScans KeyOrder BTreePages BTreeLeaves BTreeDirs
open BTreeIndexes PageLists SortedLists DirInsertion KeyRanges DirGrowth

/-- The levels of a directory, whose root has the range of all keys. -/
structure DirOk (B : BlockSize) (L : Layout) (blocks : List (Contents ℕ)) (least : Value)
    (height : ℕ) (ranges : ℕ → Ranges) : Prop where
  level : ∀ i ≤ height, LevelOk B L blocks i (ranges i) (ranges (i + 1))
  leaves : Apart (ranges 0)
  root : ranges (height + 1) 0 = some (least, ⊤)
  only : ∀ b range, ranges (height + 1) b = some range → b = 0

section Roots

variable {B : BlockSize} {L : Layout} {f : IndexFile ℕ} {least s v : Value} {height n c : ℕ}
  {ranges : ℕ → Ranges} {lc : Value} {uc : WithTop Value}

/-- The blocks that the new root leads to. -/
def halves (least s : Value) (old n : ℕ) : Ranges := fun b =>
  if b = old then some (least, (s : WithTop Value))
  else if b = n then some (s, ⊤) else none

theorem halves_cases {least s lo : Value} {old n b : ℕ} {hi : WithTop Value}
    (h : halves least s old n b = some (lo, hi)) :
    (b = old ∧ lo = least ∧ hi = s) ∨ (b = n ∧ lo = s ∧ hi = ⊤) := by
  unfold halves at h
  by_cases hold : b = old
  · rw [if_pos hold] at h
    cases h
    exact Or.inl ⟨hold, rfl, rfl⟩
  · rw [if_neg hold] at h
    by_cases hn : b = n
    · rw [if_pos hn] at h
      cases h
      exact Or.inr ⟨hn, rfl, rfl⟩
    · rw [if_neg hn] at h
      cases h

theorem apart_halves {least s : Value} {old n : ℕ} (hlt : least < s) :
    Apart (halves least s old n) := by
  refine ⟨fun b lo hi hb => ?_, fun b b' lo hi lo' hi' hb hb' hne => ?_⟩
  · obtain ⟨-, rfl, rfl⟩ | ⟨-, rfl, rfl⟩ := halves_cases hb
    · exact WithTop.coe_lt_coe.mpr hlt
    · exact WithTop.coe_lt_top _
  · obtain ⟨rfl, rfl, rfl⟩ | ⟨rfl, rfl, rfl⟩ := halves_cases hb
    · obtain ⟨rfl, -, -⟩ | ⟨-, rfl, rfl⟩ := halves_cases hb'
      · exact absurd rfl hne
      · exact Or.inl le_rfl
    · obtain ⟨-, rfl, rfl⟩ | ⟨rfl, -, -⟩ := halves_cases hb'
      · exact Or.inr le_rfl
      · exact absurd rfl hne

/-- The range of the root alone. -/
def whole (least : Value) : Ranges := fun b => if b = 0 then some (least, ⊤) else none

theorem whole_cases {least lo : Value} {b : ℕ} {hi : WithTop Value}
    (h : whole least b = some (lo, hi)) : b = 0 ∧ lo = least ∧ hi = ⊤ := by
  unfold whole at h
  by_cases hb : b = 0
  · rw [if_pos hb] at h
    cases h
    exact ⟨hb, rfl, rfl⟩
  · rw [if_neg hb] at h
    cases h

theorem apart_whole (least : Value) : Apart (whole least) := by
  refine ⟨fun b lo hi hb => ?_, fun b b' lo hi lo' hi' hb hb' hne => ?_⟩
  · obtain ⟨-, rfl, rfl⟩ := whole_cases hb
    exact WithTop.coe_lt_top _
  · obtain ⟨rfl, -, -⟩ := whole_cases hb
    obtain ⟨rfl, -, -⟩ := whole_cases hb'
    exact absurd rfl hne

/-- An entry behind all others of a page that has room for it. -/
theorem insertEntry_last (level : ℤ) (rs : List (Record ℕ)) (z : Option (Record ℕ))
    (rest : List (Option (Record ℕ))) (tail : List (Contents ℕ)) (e : DirEntry)
    {blocks : List (Contents ℕ)} {pins : List ℕ} {blk : ℕ} (hpin : blk ∈ pins)
    (hlen : blk < blocks.length) (hsuits : ∀ r ∈ rs, Suits L r.dataval)
    (hkey : Suits L e.dataVal) (hlast : ∀ r ∈ rs, r.dataval < e.dataVal)
    (hfits : 8 + (rs.length + 2) * L.slotSize < B.bytes) :
    BTreeDir.insertEntry L B ⟨⟨blocks.set blk (page level rs (z :: rest)) ++ tail, pins⟩, blk⟩ e =
      .ok (⟨⟨blocks.set blk (page level (rs ++ [⟨e.dataVal, e.blockNum⟩]) rest) ++ tail, pins⟩,
        blk⟩, none) := by
  have hblk : (blocks.set blk (page level rs (z :: rest)) ++ tail)[blk]? =
      some (page level rs (z :: rest)) := set_append_self tail _ hlen
  have hbefore : before Record.dataval e.dataVal rs = rs := by
    unfold before
    rw [List.takeWhile_eq_self_iff]
    exact fun r hr => decide_eq_true (hlast r hr)
  have hbehind : behind Record.dataval e.dataVal rs = [] := by
    have h := before_append_behind Record.dataval e.dataVal rs
    rw [hbefore] at h
    exact List.append_right_eq_self.mp h
  have hrun := insertEntry_eq (B := B) (e := e)
    (f := ⟨blocks.set blk (page level rs (z :: rest)) ++ tail, pins⟩) hpin hblk hsuits hkey
  rw [hbefore, hbehind, put_set_append pins hlen] at hrun
  rw [hrun, if_neg]
  intro hfull
  have hbytes := (isFull_page _).mp hfull
  rw [List.length_append, List.length_singleton] at hbytes
  exact absurd hbytes (Nat.not_le_of_lt hfits)

/-- The root gives its entries to a new block and leads to it; then the new entry goes into it. -/
theorem makeNewRoot_start {level : ℕ} {rs : List (Record ℕ)} {rest : List (Option (Record ℕ))}
    (hone : 8 + 2 * L.slotSize < B.bytes) (hpin : 0 ∈ f.pins)
    (hblk : f.blocks[0]? = some (page level rs rest))
    (hroom : rs.length + rest.length = capacity B L) (hsuits : ∀ r ∈ rs, Suits L r.dataval)
    (hfirst : rs.head?.map Record.dataval = some least) (d : DirEntry) :
    ∃ z stale stale', BTreeDir.makeNewRoot L B ⟨f, 0⟩ d = (do
        let (dir, _) ← BTreeDir.insertEntry L B ⟨⟨f.blocks.set 0
          (page level [⟨least, f.blocks.length⟩] (z :: stale)) ++ [page level rs stale'],
          f.blocks.length :: f.pins⟩, 0⟩ d
        let file ← dir.file.setFlag dir.contents (level + 1)
        return { dir with file := file }) ∧
      2 + stale.length = capacity B L ∧ rs.length + stale'.length = capacity B L ∧
      (∀ o ∈ z :: stale, o ∈ rest ∨ ∃ r ∈ rs, o = some r) ∧
      ∀ o ∈ stale', o = some (Contents.defaultRecord L) := by
  have hlen : 0 < f.blocks.length := (List.getElem?_eq_some_iff.mp hblk).1
  have hleast : Suits L least := by
    obtain ⟨r, hr, rfl⟩ := Option.map_eq_some_iff.mp hfirst
    exact hsuits r (List.mem_of_head? hr)
  obtain ⟨stale, stale', hsplit, hroom₁, hroom₂, hstale, hstale'⟩ :=
    exists_split (B := B) [] rs hpin hblk hsuits hroom level
  have hone' : 1 < capacity B L := lt_capacity hone
  obtain ⟨z, z', stale, rfl⟩ : ∃ z z' tail, stale = z :: z' :: tail := by
    match stale, hroom₁ with
    | [], h => exact absurd h (by rw [List.length_nil]; omega)
    | [z], h => exact absurd h (by rw [List.length_nil, List.length_singleton]; omega)
    | z :: z' :: tail, _ => exact ⟨z, z', tail, rfl⟩
  have hpin' : 0 ∈ f.blocks.length :: f.pins := List.mem_cons_of_mem _ hpin
  have hfirst' : (page level rs rest).getDataVal L 0 = .ok least := by
    cases rs with
    | nil => cases hfirst
    | cons r rs =>
      have hr : r.dataval = least := Option.some.inj hfirst
      exact hr ▸ getDataVal_at level rest [] rs (hr ▸ hleast)
  have hentry := insertEntry_last (B := B) level [] z (z' :: stale) [page level rs stale']
    ⟨least, f.blocks.length⟩ hpin' hlen (fun r hr => by cases hr) hleast
    (fun r hr => by cases hr) (by
      rw [List.length_nil]
      omega)
  refine ⟨z', stale, stale', ?_, ?_, hroom₂, fun o ho => hstale o (List.mem_cons_of_mem _ ho),
    hstale'⟩
  · unfold BTreeDir.makeNewRoot BTreeDir.page
    dsimp only
    have hsplit' : f.split L B 0 0 level = _ := hsplit
    rw [contents_eq hpin hblk, ok_bind, hfirst', ok_bind,
      show (page level rs rest).getFlag = level from rfl, hsplit', ok_bind]
    dsimp only
    rw [hentry, ok_bind]
    rfl
  · rw [List.length_nil, List.length_cons, List.length_cons] at hroom₁
    omega

/-- The root leads to the new block and to the new entry's block. -/
theorem makeNewRoot_eq {rs : List (Record ℕ)} {rest : List (Option (Record ℕ))}
    (hthree : 8 + 3 * L.slotSize < B.bytes) (hpin : 0 ∈ f.pins)
    (hblk : f.blocks[0]? = some (page height rs rest))
    (hroom : rs.length + rest.length = capacity B L) (hsuits : ∀ r ∈ rs, Suits L r.dataval)
    (hfirst : rs.head?.map Record.dataval = some least) (hleast : Suits L least) (hs : Suits L s)
    (hlt : least < s) :
    ∃ stale stale', BTreeDir.makeNewRoot L B ⟨f, 0⟩ ⟨s, n⟩ =
        .ok ⟨⟨f.blocks.set 0 (page ((height + 1 : ℕ) : ℤ)
          [⟨least, f.blocks.length⟩, ⟨s, n⟩] stale) ++
          [page height rs stale'], f.blocks.length :: f.pins⟩, 0⟩ ∧
      2 + stale.length = capacity B L ∧ rs.length + stale'.length = capacity B L ∧
      (∀ o ∈ stale, o ∈ rest ∨ ∃ r ∈ rs, o = some r) ∧
      ∀ o ∈ stale', o = some (Contents.defaultRecord L) := by
  have hlen : 0 < f.blocks.length := (List.getElem?_eq_some_iff.mp hblk).1
  have hpin' : 0 ∈ f.blocks.length :: f.pins := List.mem_cons_of_mem _ hpin
  obtain ⟨z, stale, stale', hstart, hroom₁, hroom₂, hstale, hstale'⟩ :=
    makeNewRoot_start (by omega) hpin hblk hroom hsuits hfirst ⟨s, n⟩
  have hentry := insertEntry_last (B := B) height [⟨least, f.blocks.length⟩] z stale
    [page height rs stale'] ⟨s, n⟩ hpin' hlen (fun r hr => (List.mem_singleton.mp hr) ▸ hleast) hs
    (fun r hr => (List.mem_singleton.mp hr) ▸ hlt) hthree
  refine ⟨stale, stale', ?_, hroom₁, hroom₂, fun o ho => hstale o (List.mem_cons_of_mem _ ho),
    hstale'⟩
  rw [hstart, hentry, ok_bind]
  dsimp only
  rw [setFlag_set_append hpin' hlen, ok_bind]
  rfl

/-- The directory with one more level. -/
theorem dirOk_grown (hthree : 8 + 3 * L.slotSize < B.bytes) {ranges' : ℕ → Ranges}
    (hlevel : ∀ i ≤ height, LevelOk B L f.blocks i (ranges' i) (ranges' (i + 1)))
    (hleaves : Apart (ranges' 0)) (honly : ∀ b range, ranges (height + 1) b = some range → b = 0)
    (hroot : ranges (height + 1) 0 = some (least, ⊤)) (hlt : least < s) (hleast : Suits L least)
    (hs : Suits L s) (hn : ranges (height + 1) n = none)
    (hranges : ranges' (height + 1) = divide (ranges (height + 1)) 0 n s) (hpin : 0 ∈ f.pins) :
    ∃ f' ranges'', BTreeDir.makeNewRoot L B ⟨f, 0⟩ ⟨s, n⟩ = .ok ⟨f', 0⟩ ∧
      DirOk B L f'.blocks least (height + 1) ranges'' ∧ ranges'' 0 = ranges' 0 := by
  have htop := hlevel height le_rfl
  rw [hranges] at htop
  have hne : (0 : ℕ) ≠ n := fun h => by
    rw [← h, hroot] at hn
    cases hn
  obtain ⟨rs, rest, hblk, hnode⟩ := htop.node 0 least s (divide_old hne hroot)
  obtain ⟨rs', rest', hblk', hnode'⟩ := htop.node n s ⊤ (divide_new hroot)
  have hlen : 0 < f.blocks.length := (List.getElem?_eq_some_iff.mp hblk).1
  have hlen' : n < f.blocks.length := (List.getElem?_eq_some_iff.mp hblk').1
  obtain ⟨stale, stale', hrun, hroom, hroom', hstale, hstale'⟩ := makeNewRoot_eq (n := n) hthree
    hpin hblk hnode.dir.room_page hnode.dir.suits hnode.first hleast hs hlt
  have hget : ∀ b, b ≠ 0 → b < f.blocks.length →
      (f.blocks.set 0 (page ((height + 1 : ℕ) : ℤ) [⟨least, f.blocks.length⟩, ⟨s, n⟩] stale) ++
        [page height rs stale'])[b]? = f.blocks[b]? := fun b hb hlt => set_append_ne _ _ hb hlt
  have hbelow : ∀ b, ranges' (height + 1) b ≠ none → b = 0 ∨ b = n := by
    intro b hb
    rw [hranges] at hb
    by_contra h
    rw [not_or] at h
    rw [divide_other h.2 h.1] at hb
    obtain ⟨range, hrange⟩ := Option.ne_none_iff_exists'.mp hb
    exact h.1 (honly b range hrange)
  refine ⟨_, Function.update (Function.update ranges' (height + 1)
    (halves least s f.blocks.length n)) (height + 1 + 1) (whole least), hrun, ⟨fun i hi => ?_, ?_,
    ?_, ?_⟩, ?_⟩
  · rcases Nat.lt_trichotomy i height with hlt' | rfl | hgt
    · -- the levels further down
      rw [Function.update_of_ne (by omega), Function.update_of_ne (by omega),
        Function.update_of_ne (by omega), Function.update_of_ne (by omega)]
      refine (hlevel i hlt'.le).frame (fun b c hb hflag => ?_)
      have hb0 : b ≠ 0 := by
        intro h
        rw [h, hblk] at hb
        cases hb
        exact absurd (Int.natCast_inj.mp hflag) hlt'.ne'
      exact (hget b hb0 (List.getElem?_eq_some_iff.mp hb).1).trans hb
    · -- the level of the old root
      rw [Function.update_of_ne (by omega), Function.update_of_ne (by omega),
        Function.update_of_ne (by omega), Function.update_self]
      refine ⟨fun b lo hi hb => ?_, apart_halves hlt⟩
      obtain ⟨rfl, rfl, rfl⟩ | ⟨rfl, rfl, rfl⟩ := halves_cases hb
      · exact ⟨rs, stale', set_append_new _ _ _ _, ⟨isDir_page hroom' hnode.dir.suits
          hnode.dir.sorted hnode.dir.fits,
          fun o ho => ⟨_, hstale' o ho, Suits.default hs.not_boolean⟩, hnode.first, hnode.lt_hi,
          hnode.links⟩⟩
      · exact ⟨rs', rest', (hget _ (Ne.symm hne) hlen').trans hblk', hnode'⟩
    · -- the new root
      obtain rfl : i = height + 1 := by omega
      rw [Function.update_of_ne (by omega), Function.update_self, Function.update_self]
      refine ⟨fun b lo hi hb => ?_, apart_whole least⟩
      obtain ⟨rfl, hlo, rfl⟩ := whole_cases hb
      subst lo
      refine ⟨[⟨least, f.blocks.length⟩, ⟨s, n⟩], stale,
        set_append_self _ _ hlen, ⟨isDir_page ?_ ?_ ?_ hthree, fun o ho => ?_, rfl, ?_, ?_⟩⟩
      · exact hroom
      · intro r hr
        cases hr with
        | head => exact hleast
        | tail _ hr => exact (List.mem_singleton.mp hr) ▸ hs
      · exact List.pairwise_pair.mpr hlt
      · cases hstale o ho with
        | inl hmem => exact hnode.readable o hmem
        | inr hmem =>
          obtain ⟨r, hr, rfl⟩ := hmem
          exact ⟨r, rfl, hnode.dir.suits r hr⟩
      · exact fun r _ => WithTop.coe_lt_top _
      · refine ⟨if_pos rfl, ?_, trivial⟩
        exact (if_neg hlen'.ne).trans (if_pos rfl)
  · rw [Function.update_of_ne (by omega), Function.update_of_ne (by omega)]
    exact hleaves
  · rw [Function.update_self]
    exact if_pos rfl
  · intro b range hb
    rw [Function.update_self] at hb
    exact (whole_cases hb).1
  · rw [Function.update_of_ne (by omega), Function.update_of_ne (by omega)]

/-- The entry of a divided leaf goes into the directory. -/
theorem insert_in_dir (hthree : 8 + 3 * L.slotSize < B.bytes)
    (h : DirOk B L f.blocks least height ranges) (hleast : Suits L least)
    (hmin : least ≤ v) (hv : Suits L v) (hc : ranges 0 c = some (lc, uc)) (hlc : lc < v)
    (huc : (v : WithTop Value) < uc) (hn : ranges 0 n = none) (hclear : Clear L f.blocks v 1 0) :
    ∃ root e root' height' ranges', (∀ fuel, height < fuel →
        (BTreeDir.new f 0).insert L B ⟨v, n⟩ fuel = .ok (root, e)) ∧
      BTreeIndex.growRoot B L root e = .ok root' ∧
      DirOk B L root'.close.blocks least height' ranges' ∧
      ranges' 0 = divide (ranges 0) c n v := by
  have hpin : 0 ∈ (f.pin 0).pins := List.mem_cons_self
  obtain ⟨f₁, e, ranges₁, hrun, hzero, hraised, hgrown⟩ := insert_levels (f := f.pin 0)
    (by omega) hv height h.level h.leaves h.root hmin (WithTop.coe_lt_top v) hc hlc huc hn hclear
    hpin
  have hpin₁ : 0 ∈ f₁.pins := hgrown.pins.subset hpin
  have hleaves : Apart (ranges₁ 0) := by
    rw [hzero]
    exact h.leaves.divide hc hlc huc
  generalize hranges : ranges₁ (height + 1) = here₁ at hraised
  cases hraised with
  | whole =>
    refine ⟨_, none, _, height, ranges₁, hrun, rfl, ⟨hgrown.level, hleaves, ?_, ?_⟩, hzero⟩
    · rw [hranges]
      exact h.root
    · rw [hranges]
      exact h.only
  | divided s m hlt _ hs hm =>
    obtain ⟨f₂, ranges₂, hroot, hok, hsame⟩ := dirOk_grown hthree hgrown.level hleaves h.only h.root
      hlt hleast hs hm hranges hpin₁
    exact ⟨_, _, _, height + 1, ranges₂, hrun, hroot, hok, hsame.trans hzero⟩

end Roots

end SampleDB.RootGrowth
