import SampleDB.FileGrowth
import SampleDB.Routing

/-!
The paths through a new root. The root takes the entry of an old root in the new block and
the entry that the old root returned. A page that becomes full with its second entry is
divided by the second of them, and the entry of the divided page is not looked at.
-/
namespace SampleDB.RootPaths

open Words Pages Blocks Schemas Rollback KeyOrder BTreePages BTreeLeaves BTreeDirs BTreeIndexes
open PageLists SortedLists DirInsertion KeyRanges DirGrowth RootGrowth Routing FileGrowth

def entry (blocks : List (Contents ℕ)) (blk slot : ℕ) : Option (Record ℕ) :=
  (blocks[blk]?).bind (fun c => (records c)[slot]?)

/-- The entry at the end of a path of child pointers, which is given by its slots. -/
def entryAt (blocks : List (Contents ℕ)) : ℕ → List ℕ → Option (Record ℕ)
  | _, [] => none
  | blk, [slot] => entry blocks blk slot
  | blk, slot :: next :: path =>
      (entry blocks blk slot).bind (fun r => entryAt blocks r.data (next :: path))

/-- All entries of the pages that the entries lead to, in the order of the slots. -/
def below (blocks : List (Contents ℕ)) (rs : List (Record ℕ)) : List (Record ℕ) :=
  rs.flatMap (fun r => (blocks[r.data]?).elim [] records)

/-- The new root is one level higher and not full. Exactly one path leads to every entry of
the old root, and exactly one to the block of the returned entry; what is found one level
down is the entries of the old root and then the ones of that block. -/
def KeepsEntries (B : BlockSize) (L : Layout) (blocks : List (Contents ℕ)) (e : DirEntry)
    (blocks' : List (Contents ℕ)) : Prop :=
  ∃ old other root, blocks[0]? = some old ∧ blocks[e.blockNum]? = some other ∧
    blocks'[0]? = some root ∧ root.flag = old.flag + 1 ∧ root.isFull L B = false ∧
    (∀ r ∈ records old, ∃! path, path.length = 2 ∧ entryAt blocks' 0 path = some r) ∧
    (∃! path, path.length = 1 ∧ (entryAt blocks' 0 path).map Record.data = some e.blockNum) ∧
    blocks'[e.blockNum]? = some other ∧ below blocks' (records root) = records old ++ records other

/-- The pages from a page down to level zero, by the slots for a key. -/
inductive Descent (L : Layout) (blocks : List (Contents ℕ)) (key : Value) : ℕ → ℕ → Prop
  | zero (b : ℕ) (c : Contents ℕ) : blocks[b]? = some c → c.flag = 0 → Descent L blocks key b 0
  | child (b b' n : ℕ) (c : Contents ℕ) (slot : ℤ) : blocks[b]? = some c → c.flag ≠ 0 →
      BTreeDir.slotOf L c key = .ok slot → getChildNum L c slot = .ok b' →
      Descent L blocks key b' n → Descent L blocks key b (n + 1)

section Descents

variable {B : BlockSize} {L : Layout} {f : IndexFile ℕ} {dir : BTreeDir} {d e : DirEntry}
  {r : Option DirEntry} {key : Value} {blk fuel n m : ℕ} {c : Contents ℕ}
  {blocks : List (Contents ℕ)}

theorem Descent.unique (h : Descent L blocks key blk n) (h' : Descent L blocks key blk m) :
    n = m := by
  induction h generalizing m with
  | zero b c hb hflag =>
    cases h' with
    | zero => rfl
    | child _ b' n c' slot hb' hflag' =>
      cases hb.symm.trans hb'
      exact absurd hflag hflag'
  | child b b' n c slot hb hflag hslot hchild _ ih =>
    cases h' with
    | zero _ c' hb' hflag' =>
      cases hb.symm.trans hb'
      exact absurd hflag' hflag
    | child _ b'' n' c' slot' hb' hflag' hslot' hchild' hdescent =>
      cases hb.symm.trans hb'
      cases hslot.symm.trans hslot'
      cases hchild.symm.trans hchild'
      rw [ih hdescent]

/-- An insertion is one into the page, or one below the page and then one into it of the
entry that comes back. -/
theorem insert_cases (h : BTreeDir.insert L B d fuel ⟨f, blk⟩ = .ok (dir, r)) :
    ∃ c, f.blocks[blk]? = some c ∧ ∃ k, fuel = k + 1 ∧
      (c.flag = 0 ∧ BTreeDir.insertEntry L B ⟨f, blk⟩ d = .ok (dir, r) ∨
        c.flag ≠ 0 ∧ ∃ slot b' child e, BTreeDir.slotOf L c d.dataVal = .ok slot ∧
          getChildNum L c slot = .ok b' ∧
          BTreeDir.insert L B d k ⟨f.pin b', b'⟩ = .ok (child, e) ∧
          BTreeDir.insertReturned L B ⟨child.close, blk⟩ e = .ok (dir, r)) := by
  cases fuel with
  | zero => cases h
  | succ k =>
    rw [BTreeDir.insert] at h
    obtain ⟨c, hpage, hrest⟩ := bind_eq_ok.mp h
    have hblk : f.blocks[blk]? = some c := (contents_ok hpage).2
    refine ⟨c, hblk, k, rfl, ?_⟩
    by_cases hflag : c.getFlag = 0
    · exact Or.inl ⟨hflag, (if_pos hflag).symm.trans hrest⟩
    · obtain ⟨b', hfind, hrest⟩ := bind_eq_ok.mp ((if_neg hflag).symm.trans hrest)
      obtain ⟨⟨child, e⟩, hchild, hreturned⟩ := bind_eq_ok.mp hrest
      obtain ⟨c', hpage', hget⟩ := bind_eq_ok.mp hfind
      cases hpage.symm.trans hpage'
      obtain ⟨slot, hslot, hget⟩ := bind_eq_ok.mp hget
      exact Or.inr ⟨hflag, slot, b', child, e, hslot, hget, hchild, hreturned⟩

theorem insertReturned_ok {dir₀ : BTreeDir}
    (h : BTreeDir.insertReturned L B dir₀ r = .ok (dir, some e)) :
    ∃ d, BTreeDir.insertEntry L B dir₀ d = .ok (dir, some e) := by
  cases r with
  | none => cases h
  | some d => exact ⟨d, h⟩

theorem insertReturned_frame {dir₀ : BTreeDir} {e : Option DirEntry}
    (h : BTreeDir.insertReturned L B dir₀ e = .ok (dir, r)) :
    dir.contents = dir₀.contents ∧ Frame dir₀.contents dir₀.file dir.file := by
  cases e with
  | none =>
    cases h
    exact ⟨rfl, fun _ _ _ hb => hb⟩
  | some e =>
    obtain ⟨hcontents, hframe, -⟩ := insertEntry_ok h
    exact ⟨hcontents, hframe⟩

/-- An insertion that returns ends on level zero. -/
theorem insert_descent (h : BTreeDir.insert L B d fuel ⟨f, blk⟩ = .ok (dir, r)) :
    ∃ n, Descent L f.blocks d.dataVal blk n := by
  induction fuel generalizing f blk dir r with
  | zero => cases h
  | succ fuel ih =>
    obtain ⟨c, hblk, k, hk, hcases⟩ := insert_cases h
    cases hk
    obtain ⟨hflag, -⟩ | ⟨hflag, slot, b', child, e, hslot, hget, hchild, -⟩ := hcases
    · exact ⟨0, .zero blk c hblk hflag⟩
    · obtain ⟨n, hn⟩ := ih hchild
      exact ⟨n + 1, .child blk b' n c slot hblk hflag hslot hget hn⟩

/-- Only the pages on the way down are written. -/
theorem insert_frame (h : BTreeDir.insert L B d fuel ⟨f, blk⟩ = .ok (dir, r))
    (hn : Descent L f.blocks d.dataVal blk n) :
    dir.contents = blk ∧ ∀ b c, (∀ m ≤ n, ¬ Descent L f.blocks d.dataVal b m) →
      f.blocks[b]? = some c → dir.file.blocks[b]? = some c := by
  induction fuel generalizing f blk dir r n with
  | zero => cases h
  | succ fuel ih =>
    have hself : ∀ b, (∀ m ≤ n, ¬ Descent L f.blocks d.dataVal b m) → b ≠ blk :=
      fun b hb heq => hb n le_rfl (heq ▸ hn)
    obtain ⟨c, hblk, k, hk, hcases⟩ := insert_cases h
    cases hk
    obtain ⟨hflag, hrun⟩ | ⟨hflag, slot, b', child, e, hslot, hget, hchild, hreturned⟩ := hcases
    · obtain ⟨hcontents, hframe, -⟩ := insertEntry_ok hrun
      exact ⟨hcontents, fun b c hb => hframe b c (hself b hb)⟩
    · obtain ⟨k, hk⟩ := insert_descent hchild
      have hlen : n = k + 1 := hn.unique (.child blk b' k c slot hblk hflag hslot hget hk)
      obtain ⟨-, hbelow⟩ := ih hchild hk
      obtain ⟨hcontents, hframe⟩ := insertReturned_frame hreturned
      refine ⟨hcontents, fun b c hb hc => hframe b c (hself b hb) ?_⟩
      exact hbelow b c (fun m hm => hb m (by omega)) hc

/-- What a page returns comes from the insertion of an entry into that page, which the
insertion below it has not written. -/
theorem insert_last (h : BTreeDir.insert L B d fuel ⟨f, blk⟩ = .ok (dir, some e))
    (hblk : f.blocks[blk]? = some c) :
    ∃ f' d', BTreeDir.insertEntry L B ⟨f', blk⟩ d' = .ok (dir, some e) ∧
      f'.blocks[blk]? = some c := by
  obtain ⟨c', hblk', k, hk, hcases⟩ := insert_cases h
  cases hblk.symm.trans hblk'
  obtain ⟨-, hrun⟩ | ⟨hflag, slot, b', child, e', hslot, hget, hchild, hreturned⟩ := hcases
  · exact ⟨f, d, hrun, hblk⟩
  · obtain ⟨n, hn⟩ := insert_descent hchild
    obtain ⟨-, hbelow⟩ := insert_frame hchild hn
    obtain ⟨d', hrun⟩ := insertReturned_ok hreturned
    refine ⟨child.close, d', hrun, hbelow blk c (fun m hm hdescent => ?_) hblk⟩
    have hlen := hdescent.unique (.child blk b' n c slot hblk hflag hslot hget hn)
    omega

end Descents

section Roots

variable {B : BlockSize} {L : Layout} {f : IndexFile ℕ} {c : Contents ℕ} {root : BTreeDir}
  {d e dirEntry : DirEntry} {level blk fuel n : ℕ} {rs xs ys : List (Record ℕ)} {x y : Record ℕ}
  {rest stale stale' : List (Option (Record ℕ))} {least s v w : Value}

theorem suits_of_stored (h : L.stored v = .ok w) : Suits L v := by
  unfold Suits
  unfold Layout.stored at h ⊢
  cases hL : L.dataval with
  | integer =>
    rw [hL] at h
    cases v with
    | int n => rfl
    | string str => cases h
  | varchar =>
    rw [hL] at h
    cases v with
    | int n => cases h
    | string str =>
      by_cases hlen : str.length ≤ L.length
      · exact if_pos hlen
      · cases (if_neg hlen).symm.trans h
  | boolean =>
    rw [hL] at h
    cases h

theorem insertEntry_suits {dir : BTreeDir} {r : Option DirEntry}
    (h : BTreeDir.insertEntry L B dir d = .ok (root, r)) : Suits L d.dataVal := by
  obtain ⟨c, -, hrest⟩ := bind_eq_ok.mp h
  obtain ⟨slot, -, hrest⟩ := bind_eq_ok.mp hrest
  obtain ⟨c', hinsert, -⟩ := bind_eq_ok.mp hrest
  obtain ⟨c'', -, hset⟩ := bind_eq_ok.mp hinsert
  obtain ⟨val, hstored, -⟩ := bind_eq_ok.mp hset
  exact suits_of_stored hstored

/-- A page that returns an entry has given its second half to the block of that entry. -/
theorem insertEntry_divided (hone : 8 + 2 * L.slotSize < B.bytes) (hblk : f.blocks[blk]? = some c)
    (h : IsDir B L c level rs) (hrun : BTreeDir.insertEntry L B ⟨f, blk⟩ d = .ok (root, some e)) :
    ∃ xs y ys stale stale' m f', xs ≠ [] ∧ e = ⟨y.dataval, m⟩ ∧ root = ⟨f', blk⟩ ∧ m ≠ blk ∧
      blk ∈ f'.pins ∧ f'.blocks[blk]? = some (page level xs stale) ∧
      f'.blocks[m]? = some (page level (y :: ys) stale') ∧
      (∀ r ∈ xs ++ y :: ys, Suits L r.dataval) ∧ xs.length + stale.length = capacity B L := by
  have hlen : blk < f.blocks.length := (List.getElem?_eq_some_iff.mp hblk).1
  have hkey : Suits L d.dataVal := insertEntry_suits hrun
  have hpin : blk ∈ f.pins := by
    obtain ⟨c', hpage, -⟩ := bind_eq_ok.mp hrun
    exact (contents_ok hpage).1
  obtain ⟨rest, rfl⟩ := h.form
  obtain ⟨z, rest, rfl⟩ : ∃ z tail, rest = z :: tail := by
    cases rest with
    | nil => exact absurd h.room_page (Nat.ne_of_lt (lt_capacity h.fits))
    | cons z tail => exact ⟨z, tail, rfl⟩
  have heq := insertEntry_eq (B := B) hpin hblk h.suits hkey
  have hperm := insert_perm Record.dataval (⟨d.dataVal, d.blockNum⟩ : Record ℕ) rs
  dsimp only at hperm
  generalize before Record.dataval d.dataVal rs ++
    ⟨d.dataVal, d.blockNum⟩ :: behind Record.dataval d.dataVal rs = rs' at heq hperm
  have hsuits : ∀ a ∈ rs', Suits L a.dataval := by
    intro a ha
    cases hperm.mem_iff.mp ha with
    | head => exact hkey
    | tail _ hmem => exact h.suits a hmem
  have hroom : rs'.length + rest.length = capacity B L := by
    have hroom := h.room_page
    have hcount := hperm.length_eq
    rw [List.length_cons] at hroom hcount
    omega
  rw [hrun] at heq
  by_cases hfull : (page level rs' rest).isFull L B = true
  · have htwo : 2 ≤ rs'.length := by
      have hbytes := (isFull_page rs').mp hfull
      by_contra hlt
      have hmul : (rs'.length + 1) * L.slotSize ≤ 2 * L.slotSize :=
        Nat.mul_le_mul_right _ (by omega)
      omega
    obtain ⟨xs, y, ys, rfl, hmid⟩ := exists_cut (i := rs'.length / 2) (show _ < rs'.length by omega)
    obtain ⟨stale, stale', hsplit, hroom', -⟩ := splitFull_page f.pins hpin hlen hmid hsuits hroom
    rw [if_pos hfull] at heq
    cases heq.trans hsplit
    refine ⟨xs, y, ys, stale, stale', _, _, ?_, rfl, rfl, hlen.ne', List.mem_cons_of_mem _ hpin,
      set_append_self _ _ hlen, set_append_new _ _ _ _, hsuits, hroom'⟩
    intro hnil
    rw [hnil, List.length_nil] at hmid
    rw [hnil] at htwo
    omega
  · rw [if_neg hfull] at heq
    cases heq

theorem entry_page {blocks : List (Contents ℕ)} {flag : ℤ} (slot : ℕ)
    (h : blocks[blk]? = some (page flag rs rest)) : entry blocks blk slot = rs[slot]? := by
  unfold entry
  rw [h, Option.bind_some, records_page]

theorem entryAt_one {blocks : List (Contents ℕ)} {path : List ℕ} {r : Record ℕ}
    (hlen : path.length = 1) (h : entryAt blocks blk path = some r) :
    ∃ slot, path = [slot] ∧ entry blocks blk slot = some r := by
  obtain ⟨slot, rfl⟩ := List.length_eq_one_iff.mp hlen
  exact ⟨slot, rfl, h⟩

theorem entryAt_two {blocks : List (Contents ℕ)} {path : List ℕ} {r : Record ℕ}
    (hlen : path.length = 2) (h : entryAt blocks blk path = some r) :
    ∃ slot slot' r', path = [slot, slot'] ∧ entry blocks blk slot = some r' ∧
      entry blocks r'.data slot' = some r := by
  obtain ⟨slot, slot', rfl⟩ := List.length_eq_two.mp hlen
  obtain ⟨r', hr', h⟩ := Option.bind_eq_some_iff.mp h
  exact ⟨slot, slot', r', rfl, hr', h⟩

/-- A root with an entry for the old root and one for the other block. -/
theorem keepsEntries_grown {blocks : List (Contents ℕ)} {other : Contents ℕ}
    (hthree : 8 + 3 * L.slotSize < B.bytes) (hold : blocks[0]? = some (page level xs rest))
    (hother : blocks[n]? = some other) (hn : n ≠ 0)
    (hsorted : StrictlySorted Record.dataval (xs ++ records other)) :
    KeepsEntries B L blocks ⟨s, n⟩
      (blocks.set 0 (page ((level + 1 : ℕ) : ℤ) [⟨least, blocks.length⟩, ⟨s, n⟩] stale) ++
        [page level xs stale']) := by
  have hlen : 0 < blocks.length := (List.getElem?_eq_some_iff.mp hold).1
  have hlt : n < blocks.length := (List.getElem?_eq_some_iff.mp hother).1
  obtain ⟨hxs, hys, hcross⟩ := strictlySorted_append.mp hsorted
  generalize hblocks : blocks.set 0 (page ((level + 1 : ℕ) : ℤ) [⟨least, blocks.length⟩, ⟨s, n⟩]
    stale) ++ [page level xs stale'] = blocks'
  have hroot : blocks'[0]? =
      some (page ((level + 1 : ℕ) : ℤ) [⟨least, blocks.length⟩, ⟨s, n⟩] stale) :=
    hblocks ▸ set_append_self _ _ hlen
  have hnew : blocks'[blocks.length]? = some (page level xs stale') :=
    hblocks ▸ set_append_new _ _ _ _
  have hother' : blocks'[n]? = some other :=
    hblocks ▸ (set_append_ne _ _ hn hlt).trans hother
  have hentry (slot : ℕ) : entry blocks' n slot = (records other)[slot]? := by
    unfold entry
    rw [hother', Option.bind_some]
  refine ⟨_, other, _, hold, hother, hroot, ?_, ?_, fun r hr => ?_, ⟨[1], ⟨rfl, ?_⟩, ?_⟩, hother',
    ?_⟩
  · show ((level + 1 : ℕ) : ℤ) = (level : ℤ) + 1
    omega
  · apply Bool.eq_false_iff.mpr
    intro hfull
    have hbytes := (isFull_page _).mp hfull
    rw [List.length_cons, List.length_singleton] at hbytes
    omega
  · rw [records_page] at hr
    obtain ⟨j, hj⟩ := List.mem_iff_getElem?.mp hr
    refine ⟨[0, j], ⟨rfl, ?_⟩, ?_⟩
    · show (entry blocks' 0 0).bind _ = some r
      rw [entry_page 0 hroot]
      exact (entry_page j hnew).trans hj
    · rintro path ⟨htwo, hpath⟩
      obtain ⟨i, j', r', rfl, hfirst, hsecond⟩ := entryAt_two htwo hpath
      rw [entry_page i hroot] at hfirst
      match i with
      | 0 =>
        cases hfirst
        rw [entry_page j' hnew] at hsecond
        have hlt' : j' < xs.length := (List.getElem?_eq_some_iff.mp hsecond).1
        have hnodup : xs.Nodup := hxs.imp (fun hab heq => absurd (heq ▸ hab) (lt_irrefl _))
        rw [(List.getElem?_inj hlt' hnodup).mp (hsecond.trans hj.symm)]
      | 1 =>
        cases hfirst
        rw [hentry j'] at hsecond
        exact absurd (hcross r hr r (List.mem_of_getElem? hsecond)) (lt_irrefl _)
      | i + 2 => cases hfirst
  · show (entry blocks' 0 1).map Record.data = some n
    rw [entry_page 1 hroot]
    rfl
  · rintro path ⟨hone, hpath⟩
    obtain ⟨r, hr, hdata⟩ := Option.map_eq_some_iff.mp hpath
    obtain ⟨i, rfl, hfirst⟩ := entryAt_one hone hr
    rw [entry_page i hroot] at hfirst
    match i with
    | 0 =>
      cases hfirst
      exact absurd hdata hlt.ne'
    | 1 => rfl
    | i + 2 => cases hfirst
  · rw [records_page, records_page]
    show (blocks'[blocks.length]?).elim [] records ++
      ((blocks'[n]?).elim [] records ++ []) = xs ++ records other
    rw [hnew, hother', List.append_nil]
    show records (page level xs stale') ++ records other = xs ++ records other
    rw [records_page]

/-- A root that leads to a new block only. -/
theorem not_keepsEntries {blocks blocks' : List (Contents ℕ)} {flag : ℤ}
    (h : blocks'[0]? = some (page flag [⟨least, blocks.length⟩] stale)) :
    ¬ KeepsEntries B L blocks ⟨s, n⟩ blocks' := by
  rintro ⟨old, other, root, -, hother, -, -, -, -, ⟨path, ⟨hone, hpath⟩, -⟩, -, -⟩
  obtain ⟨r, hr, hdata⟩ := Option.map_eq_some_iff.mp hpath
  obtain ⟨i, rfl, hfirst⟩ := entryAt_one hone hr
  rw [entry_page i h] at hfirst
  match i with
  | 0 =>
    cases hfirst
    exact absurd hdata (List.getElem?_eq_some_iff.mp hother).1.ne'
  | i + 1 => cases hfirst

/-- The second entry fills a page and goes to another block at once. -/
theorem insertEntry_second {z : Option (Record ℕ)} (hfull : B.bytes ≤ 8 + 3 * L.slotSize)
    (hpin : 0 ∈ f.pins) (hblk : f.blocks[0]? = some (page level [x] (z :: rest)))
    (hx : Suits L x.dataval) (hs : Suits L s) (hlt : x.dataval < s)
    (hroom : 2 + rest.length = capacity B L) :
    ∃ f' e last, BTreeDir.insertEntry L B ⟨f, 0⟩ ⟨s, n⟩ = .ok (⟨f', 0⟩, e) ∧ 0 ∈ f'.pins ∧
      f'.blocks[0]? = some (page level [x] last) := by
  have hlen : 0 < f.blocks.length := (List.getElem?_eq_some_iff.mp hblk).1
  have hsuits : ∀ r ∈ [x] ++ [⟨s, n⟩], Suits L r.dataval := by
    intro r hr
    cases hr with
    | head => exact hx
    | tail _ hr => exact (List.mem_singleton.mp hr) ▸ hs
  have hrun := insertEntry_eq (B := B) (e := ⟨s, n⟩) hpin hblk
    (fun r hr => hsuits r (List.mem_append_left _ hr)) hs
  have hbefore : before Record.dataval s [x] = [x] :=
    List.takeWhile_cons_of_pos (decide_eq_true hlt)
  have hbehind : behind Record.dataval s [x] = [] :=
    List.dropWhile_cons_of_pos (decide_eq_true hlt)
  have hpage : (page level ([x] ++ [⟨s, n⟩]) rest).isFull L B = true :=
    (isFull_page _).mpr (show B.bytes ≤ _ from hfull)
  rw [hbefore, hbehind, if_pos hpage] at hrun
  obtain ⟨last, last', hdivided, -⟩ :=
    @splitFull_page B L 0 level [x] [] rest f.blocks f.pins ⟨s, n⟩
    hpin hlen (show 1 = (1 + 1) / 2 from rfl) hsuits hroom
  exact ⟨_, _, last, hrun.trans hdivided, List.mem_cons_of_mem _ hpin, set_append_self _ _ hlen⟩

/-- Then the root leads to the block of the old root only. -/
theorem makeNewRoot_full (hone : 8 + 2 * L.slotSize < B.bytes)
    (hthree : B.bytes ≤ 8 + 3 * L.slotSize) (hpin : 0 ∈ f.pins)
    (hblk : f.blocks[0]? = some (page level rs rest))
    (hroom : rs.length + rest.length = capacity B L) (hsuits : ∀ r ∈ rs, Suits L r.dataval)
    (hfirst : rs.head?.map Record.dataval = some least) (hs : Suits L s) (hlt : least < s) :
    ∃ dir flag stale, BTreeDir.makeNewRoot L B ⟨f, 0⟩ ⟨s, n⟩ = .ok dir ∧
      dir.file.blocks[0]? = some (page flag [⟨least, f.blocks.length⟩] stale) := by
  have hlen : 0 < f.blocks.length := (List.getElem?_eq_some_iff.mp hblk).1
  have hleast : Suits L least := by
    obtain ⟨r, hr, rfl⟩ := Option.map_eq_some_iff.mp hfirst
    exact hsuits r (List.mem_of_head? hr)
  have hpin' : 0 ∈ f.blocks.length :: f.pins := List.mem_cons_of_mem _ hpin
  obtain ⟨z, stale, stale', hstart, hroom₁, -, -, -⟩ :=
    makeNewRoot_start hone hpin hblk hroom hsuits hfirst ⟨s, n⟩
  obtain ⟨f', e, last, hsecond, hpin'', hblk'⟩ := insertEntry_second (n := n)
    (f := ⟨f.blocks.set 0 (page level [⟨least, f.blocks.length⟩] (z :: stale)) ++
      [page level rs stale'], f.blocks.length :: f.pins⟩)
    hthree hpin' (set_append_self _ _ hlen) hleast hs hlt (by omega)
  have hlen' : 0 < f'.blocks.length := (List.getElem?_eq_some_iff.mp hblk').1
  refine ⟨⟨f'.put 0 (page (level + 1) [⟨least, f.blocks.length⟩] last), 0⟩, level + 1, last, ?_,
    List.getElem?_set_self hlen'⟩
  rw [hstart, hsecond, ok_bind]
  unfold IndexFile.setFlag
  dsimp only
  rw [contents_eq hpin'' hblk']
  rfl

/-- In a directory whose levels are in order, the two halves of a divided root are in order. -/
theorem insert_inOrder {height : ℕ} {ranges : ℕ → Ranges} {lc : Value} {uc : WithTop Value} {b : ℕ}
    (hone : 8 + 2 * L.slotSize < B.bytes) (h : DirOk B L f.blocks least height ranges)
    (hmin : least ≤ v) (hv : Suits L v) (hb : ranges 0 b = some (lc, uc)) (hlc : lc < v)
    (huc : (v : WithTop Value) < uc) (hn : ranges 0 n = none) (hclear : Clear L f.blocks v 1 0)
    (hfuel : height < fuel)
    (hinsert : BTreeDir.insert L B ⟨v, n⟩ fuel (BTreeDir.new f 0) = .ok (root, some e))
    {old other : Contents ℕ} (hold : root.file.blocks[0]? = some old)
    (hother : root.file.blocks[e.blockNum]? = some other) :
    StrictlySorted Record.dataval (records old ++ records other) := by
  obtain ⟨f₁, e₁, ranges₁, hrun, -, hraised, hgrown⟩ := insert_levels (f := f.pin 0) hone hv height
    h.level h.leaves h.root hmin (WithTop.coe_lt_top v) hb hlc huc hn hclear List.mem_cons_self
  cases hinsert.symm.trans (hrun fuel hfuel)
  generalize hranges : ranges₁ (height + 1) = here₁ at hraised
  cases hraised with
  | divided s m hlt _ hs hm =>
    have htop := hgrown.level height le_rfl
    rw [hranges] at htop
    have hne : (0 : ℕ) ≠ m := fun heq => by
      rw [← heq, h.root] at hm
      cases hm
    obtain ⟨rs, rest, hblk, hnode⟩ := htop.node 0 least s (divide_old hne h.root)
    obtain ⟨rs', rest', hblk', hnode'⟩ := htop.node m s ⊤ (divide_new h.root)
    cases hold.symm.trans hblk
    cases hother.symm.trans hblk'
    rw [records_page, records_page]
    refine strictlySorted_append.mpr ⟨hnode.dir.sorted, hnode'.dir.sorted, fun a ha a' ha' => ?_⟩
    have hlo : a.dataval < s := WithTop.coe_lt_coe.mp (hnode.lt_hi a ha)
    exact hlo.trans_le (hnode'.le_of_mem ha')

/-- A returned entry makes a new root that keeps all entries if and only if two entries do not
fill a page. -/
theorem makeNewRoot_keeps_iff (hone : 8 + 2 * L.slotSize < B.bytes)
    (hroot : f.blocks[0]? = some c) (h : IsDir B L c level rs)
    (hinsert : BTreeDir.insert L B dirEntry fuel (BTreeDir.new f 0) = .ok (root, some e))
    (horder : ∀ old other, root.file.blocks[0]? = some old →
      root.file.blocks[e.blockNum]? = some other →
      StrictlySorted Record.dataval (records old ++ records other)) :
    (∃ dir, root.makeNewRoot L B e = .ok dir ∧
        KeepsEntries B L root.file.blocks e dir.file.blocks) ↔
      8 + 3 * L.slotSize < B.bytes := by
  obtain ⟨f', d, hrun, hblk⟩ := insert_last (f := f.pin 0) hinsert hroot
  obtain ⟨xs, y, ys, stale, stale', m, g, hne, rfl, rfl, hm, hpin, hold, hother, hsuits, hroom⟩ :=
    insertEntry_divided hone hblk h hrun
  have hsorted := horder _ _ hold hother
  rw [records_page] at hsorted
  obtain ⟨x, xs, rfl⟩ := List.exists_cons_of_ne_nil hne
  have hlt : x.dataval < y.dataval :=
    (strictlySorted_append.mp hsorted).2.2 x List.mem_cons_self y
      (by rw [records_page]; exact List.mem_cons_self)
  have hxs : ∀ r ∈ x :: xs, Suits L r.dataval :=
    fun r hr => hsuits r (List.mem_append_left _ hr)
  have hy : Suits L y.dataval := hsuits y (List.mem_append_right _ List.mem_cons_self)
  constructor
  · rintro ⟨dir, hdir, hkeeps⟩
    by_contra hthree
    obtain ⟨dir', flag, last, hdir', hblocks⟩ := makeNewRoot_full (n := m) hone
      (Nat.le_of_not_lt hthree) hpin hold hroom hxs rfl hy hlt
    cases hdir.symm.trans hdir'
    exact not_keepsEntries hblocks hkeeps
  · intro hthree
    obtain ⟨last, last', hdir, -⟩ := makeNewRoot_eq (n := m) hthree hpin hold hroom hxs rfl
      (hxs x List.mem_cons_self) hy hlt
    exact ⟨_, hdir, keepsEntries_grown hthree hold hother hm hsorted⟩

end Roots

/-- A block for three entries with integer keys. -/
def threeEntries : BlockSize := ⟨48, by decide, by decide⟩

def twoKeys : IndexFile ℕ :=
  ⟨[page 0 [⟨.int (-2147483648), 0⟩, ⟨.int 5, 1⟩] [none]], []⟩

theorem makeNewRoot_keeps_twoKeys : ∃ root e dir,
    BTreeDir.insert (dirLayout .integer 0) threeEntries ⟨.int 7, 2⟩ 1 (BTreeDir.new twoKeys 0) =
      .ok (root, some e) ∧
    root.makeNewRoot (dirLayout .integer 0) threeEntries e = .ok dir ∧
    KeepsEntries threeEntries (dirLayout .integer 0) root.file.blocks e dir.file.blocks := by
  have hdir : IsDir threeEntries (dirLayout .integer 0)
      (page 0 [⟨.int (-2147483648), 0⟩, ⟨.int 5, 1⟩] [none]) 0
      [⟨.int (-2147483648), 0⟩, ⟨.int 5, 1⟩] :=
    isDir_page (by decide) (by decide) (List.pairwise_pair.mpr (by decide)) (by decide)
  obtain ⟨root, e, hinsert⟩ : ∃ root e, BTreeDir.insert (dirLayout .integer 0) threeEntries
      ⟨.int 7, 2⟩ 1 (BTreeDir.new twoKeys 0) = .ok (root, some e) := ⟨_, _, rfl⟩
  have horder : ∀ old other, root.file.blocks[0]? = some old →
      root.file.blocks[e.blockNum]? = some other →
      StrictlySorted Record.dataval (records old ++ records other) := by
    cases hinsert
    intro old other hold hother
    cases hold
    cases hother
    unfold StrictlySorted
    decide
  have hblk : twoKeys.blocks[0]? =
      some (page 0 [⟨.int (-2147483648), 0⟩, ⟨.int 5, 1⟩] [none]) := rfl
  obtain ⟨dir, hrun, hkeeps⟩ :=
    (makeNewRoot_keeps_iff (by decide) hblk hdir hinsert horder).mpr (by decide)
  exact ⟨root, e, dir, hinsert, hrun, hkeeps⟩

/-- The block size of the program. -/
def standardBlock : BlockSize := ⟨400, word_le_standard, standard_lt_int⟩

/-- A new directory of an index on a string field of 119 characters. -/
def wideKeys : IndexFile ℕ := ⟨[page 0 [⟨.string [], 0⟩] [some ⟨.string [], 0⟩]], []⟩

theorem not_keepsEntries_wideKeys : ∃ root e,
    8 + 2 * (dirLayout .varchar 119).slotSize < standardBlock.bytes ∧
    BTreeDir.insert (dirLayout .varchar 119) standardBlock ⟨.string [97], 1⟩ 1
      (BTreeDir.new wideKeys 0) = .ok (root, some e) ∧
    ¬ ∃ dir, root.makeNewRoot (dirLayout .varchar 119) standardBlock e = .ok dir ∧
      KeepsEntries standardBlock (dirLayout .varchar 119) root.file.blocks e dir.file.blocks := by
  refine ⟨_, _, by decide, rfl, ?_⟩
  rintro ⟨dir, hrun, hkeeps⟩
  cases hrun
  exact not_keepsEntries rfl hkeeps

end SampleDB.RootPaths
