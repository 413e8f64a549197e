import SampleDB.BTreeLeaves
import SampleDB.PageLists
import SampleDB.SortedLists

/-!
Insertion into a leaf. The page stays sorted. A page that becomes full is divided where a key
begins, or, when it has only one key, continued in an overflow block; a page with overflow
blocks moves away as a whole when a smaller key arrives.
-/
namespace SampleDB.LeafInsertion

open Words Pages Blocks Schemas Rollback TableScans KeyOrder BTreePages BTreeLeaves PageLists
open SortedLists

/-- A sorted leaf page that has room for one more record. -/
structure IsLeaf (B : BlockSize) (L : Layout) (c : Contents Rid) (flag : ℤ)
    (rs : List (Record Rid)) : Prop extends Holds B L c flag rs where
  sorted : Sorted Record.dataval rs
  not_full : c.isFull L B = false

/-- The overflow blocks stay behind the page that begins with their key. -/
def ChainKept (flag : ℤ) (rs : List (Record Rid)) (flag' : ℤ) (rs' : List (Record Rid)) : Prop :=
  flag' = flag ∧ (0 ≤ flag → rs'.head?.map Record.dataval = rs.head?.map Record.dataval)

/-- What an insertion of a record into the leaf in a block of the file leads to. -/
inductive Inserted (B : BlockSize) (L : Layout) (blocks : List (Contents Rid)) (blk : ℕ)
    (flag : ℤ) (rs : List (Record Rid)) (r : Record Rid) :
    List (Contents Rid) → Option DirEntry → Prop
  | whole (c : Contents Rid) (rs' : List (Record Rid)) : IsLeaf B L c flag rs' →
      rs'.Perm (r :: rs) → ChainKept flag rs flag rs' →
      Inserted B L blocks blk flag rs r (blocks.set blk c) none
  | divided (c c' : Contents Rid) (flag₁ flag₂ : ℤ) (rs₁ rs₂ : List (Record Rid)) (v : Value) :
      IsLeaf B L c flag₁ rs₁ → IsLeaf B L c' flag₂ rs₂ → (rs₁ ++ rs₂).Perm (r :: rs) →
      (∀ a ∈ rs₁, a.dataval < v) → (∀ a ∈ rs₂, v ≤ a.dataval) →
      rs₂.head?.map Record.dataval = some v → rs₁ ≠ [] →
      (ChainKept flag rs flag₁ rs₁ ∧ flag₂ = -1 ∨ flag₁ = -1 ∧ ChainKept flag rs flag₂ rs₂) →
      Inserted B L blocks blk flag rs r (blocks.set blk c ++ [c']) (some ⟨v, blocks.length⟩)
  | continued (c c' : Contents Rid) (rs₁ rs₂ : List (Record Rid)) (v : Value) :
      IsLeaf B L c blocks.length rs₁ → IsLeaf B L c' flag rs₂ → (rs₁ ++ rs₂).Perm (r :: rs) →
      rs₁ ≠ [] → (∀ a ∈ rs₁ ++ rs₂, a.dataval = v) →
      Inserted B L blocks blk flag rs r (blocks.set blk c ++ [c']) none

/-- A block that is new has a record. -/
def NewFilled (blocks blocks' : List (Contents Rid)) : Prop :=
  ∀ c, blocks'[blocks.length]? = some c → 0 < c.numRecs

section Pages

variable {B : BlockSize} {L : Layout} {flag : ℤ} {rs xs ys : List (Record Rid)}
  {rest : List (Option (Record Rid))}

theorem getDataVal_page (flag : ℤ) (rest : List (Option (Record Rid))) (xs ys : List (Record Rid))
    {r : Record Rid} (hr : Suits L r.dataval) :
    (page flag (xs ++ r :: ys) rest).getDataVal L xs.length = .ok r.dataval := by
  unfold Contents.getDataVal
  rw [record_page hr.not_boolean]
  rfl

theorem getDataVal_head {r : Record Rid} (hr : Suits L r.dataval) :
    (page flag (r :: ys) rest).getDataVal L 0 = .ok r.dataval :=
  getDataVal_page flag rest [] ys hr

theorem moveRight_page (flag : ℤ) (rest : List (Option (Record Rid))) {v : Value}
    (xs ys zs : List (Record Rid)) (z : Record Rid) (n : ℕ)
    (hsuits : ∀ r ∈ ys ++ z :: zs, Suits L r.dataval) (hv : Suits L v)
    (hys : ∀ r ∈ ys, r.dataval = v) (hz : z.dataval ≠ v) (hn : ys.length < n) :
    BTreeLeaf.moveRight L (page flag (xs ++ (ys ++ z :: zs)) rest) v n xs.length =
      .ok (xs ++ ys).length := by
  induction ys generalizing xs n with
  | nil =>
    obtain ⟨n, rfl⟩ : ∃ m, n = m + 1 := ⟨n - 1, by omega⟩
    have hsz : Suits L z.dataval := hsuits z List.mem_cons_self
    rw [BTreeLeaf.moveRight, List.nil_append, getDataVal_page _ _ _ _ hsz, ok_bind,
      equal_eq (hsz.sameKind hv), ok_bind, decide_eq_false hz, List.append_nil]
    rfl
  | cons y ys ih =>
    obtain ⟨n, rfl⟩ : ∃ m, n = m + 1 := ⟨n - 1, by omega⟩
    have hy : Suits L y.dataval := hsuits y List.mem_cons_self
    have hnext := ih (xs ++ [y]) n (fun r hr => hsuits r (List.mem_cons_of_mem _ hr))
      (fun r hr => hys r (List.mem_cons_of_mem _ hr)) (Nat.lt_of_succ_lt_succ hn)
    rw [List.append_assoc, List.append_assoc, List.length_append, List.length_singleton] at hnext
    rw [BTreeLeaf.moveRight, List.cons_append, getDataVal_page _ _ _ _ hy, ok_bind,
      equal_eq (hy.sameKind hv), ok_bind, decide_eq_true (hys y List.mem_cons_self)]
    exact hnext

theorem moveLeft_page (flag : ℤ) (rest : List (Option (Record Rid))) {v : Value}
    (xs ys zs : List (Record Rid)) (x : Record Rid) (n : ℕ)
    (hsuits : ∀ r ∈ x :: ys, Suits L r.dataval) (hv : Suits L v)
    (hys : ∀ r ∈ ys, r.dataval = v) (hx : x.dataval ≠ v) (hn : ys.length < n) :
    BTreeLeaf.moveLeft L (page flag (xs ++ x :: (ys ++ zs)) rest) v n
      (xs.length + 1 + ys.length : ℕ) = .ok (xs.length + 1 : ℕ) := by
  induction ys using List.reverseRecOn generalizing zs n with
  | nil =>
    obtain ⟨n, rfl⟩ : ∃ m, n = m + 1 := ⟨n - 1, by omega⟩
    have hsx : Suits L x.dataval := hsuits x List.mem_cons_self
    rw [BTreeLeaf.moveLeft, List.length_nil,
      show ((xs.length + 1 + 0 : ℕ) : ℤ) - 1 = xs.length by omega, getDataVal_page _ _ _ _ hsx,
      ok_bind, equal_eq (hsx.sameKind hv), ok_bind, decide_eq_false hx]
    rfl
  | append_singleton ys y ih =>
    obtain ⟨n, rfl⟩ : ∃ m, n = m + 1 := ⟨n - 1, by omega⟩
    have hmem : y ∈ ys ++ [y] := List.mem_append_right _ List.mem_cons_self
    have hy : Suits L y.dataval := hsuits y (List.mem_cons_of_mem _ hmem)
    rw [List.length_append, List.length_singleton] at hn ⊢
    have hsub : ∀ r ∈ ys, r ∈ ys ++ [y] := fun r hr => List.mem_append_left _ hr
    have hnext := ih (y :: zs) n (fun r hr => by
        cases hr with
        | head => exact hsuits x List.mem_cons_self
        | tail _ hr => exact hsuits r (List.mem_cons_of_mem _ (hsub r hr)))
      (fun r hr => hys r (hsub r hr)) (by omega)
    have hget := getDataVal_page flag rest (xs ++ x :: ys) zs hy
    rw [List.append_assoc, List.cons_append, List.length_append, List.length_cons] at hget
    have hlist : xs ++ x :: (ys ++ [y] ++ zs) = xs ++ x :: (ys ++ y :: zs) := by
      rw [List.append_assoc]
      rfl
    rw [BTreeLeaf.moveLeft, hlist,
      show ((xs.length + 1 + (ys.length + 1) : ℕ) : ℤ) - 1 = (xs.length + (ys.length + 1) : ℕ) by
        omega,
      hget, ok_bind, equal_eq (hy.sameKind hv), ok_bind, decide_eq_true (hys y hmem)]
    rw [show xs.length + (ys.length + 1) = xs.length + 1 + ys.length by omega]
    exact hnext

/-- What is in front of a place is not larger. -/
theorem le_of_mem_front {y a : Record Rid} (h : Sorted Record.dataval (xs ++ y :: ys))
    (ha : a ∈ xs) : a.dataval ≤ y.dataval :=
  (sorted_append.mp h).2.2 a ha y List.mem_cons_self

theorem le_of_mem_back {y a : Record Rid} (h : Sorted Record.dataval (xs ++ y :: ys))
    (ha : a ∈ ys) : y.dataval ≤ a.dataval :=
  (List.pairwise_cons.mp (sorted_append.mp h).2.1).1 a ha

/-- The middle has the first key, and the search goes on to the key behind it. -/
theorem findSplit_right {y r : Record Rid} (hs : Sorted Record.dataval (xs ++ y :: ys))
    (hsuits : ∀ a ∈ xs ++ y :: ys, Suits L a.dataval)
    (hmid : xs.length = (xs ++ y :: ys).length / 2) (hr : r ∈ ys)
    (hne : r.dataval ≠ y.dataval) :
    ∃ front z back, xs ++ y :: ys = front ++ z :: back ∧ front ≠ [] ∧
      (∀ a ∈ front, a.dataval < z.dataval) ∧
      BTreeLeaf.findSplit L (page flag (xs ++ y :: ys) rest) y.dataval =
        .ok (front.length, z.dataval) := by
  obtain ⟨run, back, rfl, hrun, hback⟩ := exists_first_run (fun a => a.dataval = y.dataval) ys
  obtain ⟨z, back, rfl⟩ : ∃ z zs, back = z :: zs := by
    cases back with
    | nil =>
      rw [List.append_nil] at hr
      exact absurd (hrun r hr) hne
    | cons z zs => exact ⟨z, zs, rfl⟩
  have hz : z.dataval ≠ y.dataval := hback z rfl
  have hlist : xs ++ y :: (run ++ z :: back) = (xs ++ y :: run) ++ z :: back := by
    rw [List.append_assoc]
    rfl
  have hy : Suits L y.dataval := hsuits y (List.mem_append_right _ List.mem_cons_self)
  have hsz : Suits L z.dataval := hsuits z (by
    rw [hlist]
    exact List.mem_append_right _ List.mem_cons_self)
  have hlt : y.dataval < z.dataval := lt_of_le_of_ne
    (le_of_mem_back hs (List.mem_append_right _ List.mem_cons_self)) (Ne.symm hz)
  have hfuel : (y :: run).length <
      (page flag (xs ++ ((y :: run) ++ z :: back)) rest).slots.length + 1 := by
    rw [page_length, List.length_append, List.length_append, List.length_cons, List.length_cons]
    omega
  have hright := moveRight_page flag rest xs (y :: run) back z _
    (fun a ha => hsuits a (List.mem_append_right _ ha)) hy
    (fun a ha => by
      cases ha with
      | head => rfl
      | tail _ ha => exact hrun a ha) hz hfuel
  have hget := getDataVal_page flag rest (xs ++ y :: run) back hsz
  refine ⟨xs ++ y :: run, z, back, hlist, by simp, ?_, ?_⟩
  · intro a ha
    refine lt_of_le_of_lt ?_ hlt
    cases List.mem_append.mp ha with
    | inl hmem => exact le_of_mem_front hs hmem
    | inr hmem =>
      cases hmem with
      | head => exact le_refl _
      | tail _ hmem => exact (hrun a hmem).le
  · have hpos : (page flag (xs ++ y :: (run ++ z :: back)) rest).numRecs.tdiv 2 = xs.length := by
      rw [hmid]
      rfl
    unfold BTreeLeaf.findSplit
    dsimp only
    rw [hpos, getDataVal_page _ _ _ _ hy, ok_bind, equal_eq (hy.sameKind hy), ok_bind,
      decide_eq_true rfl, if_pos rfl]
    rw [← List.cons_append] at *
    rw [hright, ok_bind, ← List.append_assoc, hget]
    rfl

/-- The middle has another key than the first record, and the search goes back to where that
key begins. -/
theorem findSplit_left {y r : Record Rid} (hs : Sorted Record.dataval (xs ++ y :: ys))
    (hsuits : ∀ a ∈ xs ++ y :: ys, Suits L a.dataval)
    (hmid : xs.length = (xs ++ y :: ys).length / 2) (hr : r ∈ xs) (hne : r.dataval ≠ y.dataval)
    {v : Value} (hv : Suits L v) (hfirst : y.dataval ≠ v) :
    ∃ front z back, xs ++ y :: ys = front ++ z :: back ∧ front ≠ [] ∧
      (∀ a ∈ front, a.dataval < z.dataval) ∧
      BTreeLeaf.findSplit L (page flag (xs ++ y :: ys) rest) v =
        .ok (front.length, z.dataval) := by
  obtain ⟨front, run, rfl, hrun, hfront⟩ := exists_last_run (fun a => a.dataval = y.dataval) xs
  obtain ⟨front, x, rfl⟩ : ∃ zs z, front = zs ++ [z] := by
    cases List.eq_nil_or_concat front with
    | inl h =>
      rw [h, List.nil_append] at hr
      exact absurd (hrun r hr) hne
    | inr h =>
      obtain ⟨zs, z, rfl⟩ := h
      exact ⟨zs, z, List.concat_eq_append⟩
  have hx : x.dataval ≠ y.dataval := hfront x (by simp)
  obtain ⟨z, back, hzback, hz⟩ : ∃ z back, run ++ y :: ys = z :: back ∧ z.dataval = y.dataval := by
    cases run with
    | nil => exact ⟨y, ys, rfl, rfl⟩
    | cons z run => exact ⟨z, run ++ y :: ys, rfl, hrun z List.mem_cons_self⟩
  have hlist : (front ++ [x]) ++ run ++ y :: ys = (front ++ [x]) ++ z :: back := by
    rw [List.append_assoc, hzback]
  have hy : Suits L y.dataval := hsuits y (List.mem_append_right _ List.mem_cons_self)
  have hlt : x.dataval < y.dataval := lt_of_le_of_ne (le_of_mem_front hs (by simp)) hx
  have hfuel : run.length <
      (page flag (front ++ x :: (run ++ y :: ys)) rest).slots.length + 1 := by
    rw [page_length, List.length_append, List.length_cons, List.length_append]
    omega
  have hleft := moveLeft_page flag rest front run (y :: ys) x _
    (fun a ha => hsuits a (by
      cases ha with
      | head => simp
      | tail _ ha =>
        exact List.mem_append_left _ (List.mem_append_right _ ha))) hy hrun hx hfuel
  have hshape : front ++ [x] ++ run ++ y :: ys = front ++ x :: (run ++ y :: ys) := by
    rw [List.append_assoc, List.append_assoc]
    rfl
  refine ⟨front ++ [x], z, back, hlist, by simp, ?_, ?_⟩
  · intro a ha
    rw [hz]
    refine lt_of_le_of_lt ?_ hlt
    cases List.mem_append.mp ha with
    | inl hmem =>
      rw [hshape] at hs
      exact le_of_mem_front hs hmem
    | inr hmem => exact (congrArg Record.dataval (List.mem_singleton.mp hmem)).le
  · have hpos : (page flag (front ++ [x] ++ run ++ y :: ys) rest).numRecs.tdiv 2 =
        (front ++ [x] ++ run).length := by
      rw [hmid]
      rfl
    have hlen : (front ++ [x] ++ run).length = front.length + 1 + run.length := by
      rw [List.length_append, List.length_append, List.length_singleton]
    unfold BTreeLeaf.findSplit
    dsimp only
    rw [hpos, getDataVal_page _ _ _ _ hy, ok_bind, equal_eq (hy.sameKind hv), ok_bind,
      decide_eq_false hfirst, if_neg Bool.false_ne_true, hlen, hshape, hleft, ok_bind, hz,
      List.length_append]
    rfl

/-- A full page with different keys is split where a key begins. -/
theorem findSplit_page (flag : ℤ) (rest : List (Option (Record Rid))) {first last : Record Rid}
    {middle : List (Record Rid)}
    (hs : Sorted Record.dataval (first :: middle ++ [last]))
    (hsuits : ∀ a ∈ first :: middle ++ [last], Suits L a.dataval)
    (hne : first.dataval ≠ last.dataval) :
    ∃ front z back, first :: middle ++ [last] = front ++ z :: back ∧ front ≠ [] ∧
      (∀ a ∈ front, a.dataval < z.dataval) ∧
      BTreeLeaf.findSplit L (page flag (first :: middle ++ [last]) rest) first.dataval =
        .ok (front.length, z.dataval) := by
  have hlt : (first :: middle ++ [last]).length / 2 < (first :: middle ++ [last]).length := by
    rw [List.length_append, List.length_cons, List.length_singleton]
    omega
  obtain ⟨xs, y, ys, hlist, hmid⟩ := exists_cut hlt
  have hfirst_last : first.dataval ≤ last.dataval :=
    (sorted_append.mp hs).2.2 first List.mem_cons_self last List.mem_cons_self
  have hlast : last ∈ xs ++ y :: ys := hlist ▸ List.mem_append_right _ List.mem_cons_self
  rw [hlist] at hs hsuits hmid ⊢
  have hsfirst : Suits L first.dataval := hsuits first (hlist ▸ List.mem_cons_self)
  by_cases hkey : y.dataval = first.dataval
  · have hmem : last ∈ ys := by
      cases List.mem_append.mp hlast with
      | inl hxs =>
        exact absurd (hfirst_last.antisymm (hkey ▸ le_of_mem_front hs hxs)) hne
      | inr hys =>
        cases hys with
        | head => exact absurd hkey.symm hne
        | tail _ hmem => exact hmem
    rw [← hkey]
    exact findSplit_right hs hsuits hmid hmem (fun h => hne (hkey.symm.trans h.symm))
  · have hmem : first ∈ xs := by
      cases xs with
      | nil => exact absurd (congrArg Record.dataval (List.cons.inj hlist).1).symm hkey
      | cons x xs => exact (List.cons.inj hlist).1 ▸ List.mem_cons_self
    exact findSplit_left hs hsuits hmid hmem (Ne.symm hkey) hsfirst hkey

end Pages

section Files

variable {B : BlockSize} {L : Layout} {f : IndexFile Rid} {blk : ℕ} {c : Contents Rid} {flag : ℤ}
  {rs xs ys : List (Record Rid)} {rest : List (Option (Record Rid))} {key : Value} {slot : ℤ}
  {datarid : Rid}

/-- A page with records in order and room for one more. -/
theorem isLeaf_page (hroom : rs.length + rest.length = capacity B L)
    (hsuits : ∀ r ∈ rs, Suits L r.dataval) (hsorted : Sorted Record.dataval rs)
    (hfits : 8 + (rs.length + 1) * L.slotSize < B.bytes) :
    IsLeaf B L (page flag rs rest) flag rs :=
  ⟨⟨⟨rest, rfl⟩, (page_length flag rs rest).trans hroom, hsuits⟩, hsorted,
    Bool.eq_false_iff.mpr (fun h => absurd ((isFull_page rs).mp h) (Nat.not_le_of_lt hfits))⟩

theorem IsLeaf.fits (h : IsLeaf B L c flag rs) : 8 + (rs.length + 1) * L.slotSize < B.bytes := by
  apply Nat.lt_of_not_le
  intro hle
  exact absurd (h.isFull_iff.mpr hle) (Bool.eq_false_iff.mp h.not_full)

theorem IsLeaf.room_page (h : IsLeaf B L (page flag rs rest) flag rs) :
    rs.length + rest.length = capacity B L :=
  (page_length flag rs rest).symm.trans h.room

theorem insertAt_page (slot : ℤ) (datarid : Rid) {z : Option (Record Rid)} (hpin : blk ∈ f.pins)
    (hblk : f.blocks[blk]? = some (page flag (xs ++ ys) (z :: rest)))
    (hys : ∀ r ∈ ys, Suits L r.dataval) (hkey : Suits L key) :
    BTreeLeaf.insertAt L ⟨f, blk, slot, key⟩ xs.length datarid =
      .ok ⟨f.put blk (page flag (xs ++ ⟨key, datarid⟩ :: ys) rest), blk, xs.length, key⟩ := by
  unfold BTreeLeaf.insertAt BTreeLeaf.page insertLeaf
  dsimp only
  rw [contents_eq hpin hblk, ok_bind, insertRecord_page flag rest xs ys z datarid hys hkey, ok_bind]
  rfl

theorem insertAt_set_append (slot : ℤ) (datarid : Rid) (flag : ℤ) (xs ys : List (Record Rid))
    (z : Option (Record Rid)) (rest : List (Option (Record Rid)))
    {blocks : List (Contents Rid)} (tail : List (Contents Rid)) {pins : List ℕ} (hpin : blk ∈ pins)
    (h : blk < blocks.length)
    (hys : ∀ r ∈ ys, Suits L r.dataval) (hkey : Suits L key) :
    BTreeLeaf.insertAt L ⟨⟨blocks.set blk (page flag (xs ++ ys) (z :: rest)) ++ tail, pins⟩, blk,
        slot, key⟩ xs.length datarid =
      .ok ⟨⟨blocks.set blk (page flag (xs ++ ⟨key, datarid⟩ :: ys) rest) ++ tail, pins⟩, blk,
        xs.length, key⟩ := by
  unfold BTreeLeaf.insertAt BTreeLeaf.page insertLeaf
  dsimp only
  rw [contents_set_append tail hpin h, ok_bind,
    insertRecord_page flag rest xs ys z datarid hys hkey, ok_bind, put_set_append pins h]
  rfl

theorem newFilled_append (blocks : List (Contents Rid)) (blk : ℕ) (c : Contents Rid) {flag : ℤ}
    (stale : List (Option (Record Rid))) (hne : rs ≠ []) :
    NewFilled blocks (blocks.set blk c ++ [page flag rs stale]) := by
  intro c' hget
  rw [set_append_new] at hget
  obtain rfl := Option.some.inj hget
  exact Int.natCast_pos.mpr (List.length_pos_iff.mpr hne)

theorem newFilled_set (blocks : List (Contents Rid)) (blk : ℕ) (c : Contents Rid) :
    NewFilled blocks (blocks.set blk c) := by
  intro c' hget
  have hlt := (List.getElem?_eq_some_iff.mp hget).1
  rw [List.length_set] at hlt
  exact absurd hlt (lt_irrefl _)

/-- A key below a page with overflow blocks gets the page for itself. -/
theorem insertBelow_page (slot : ℤ) (datarid : Rid) {r : Record Rid}
    (hone : 8 + 2 * L.slotSize < B.bytes)
    (hpin : blk ∈ f.pins) (hblk : f.blocks[blk]? = some (page flag (r :: rs) rest))
    (h : IsLeaf B L (page flag (r :: rs) rest) flag (r :: rs)) (hkey : Suits L key)
    (hlt : key < r.dataval) :
    ∃ leaf e, BTreeLeaf.insertBelow L B ⟨f, blk, slot, key⟩ datarid = .ok (leaf, e) ∧
      Inserted B L f.blocks blk flag (r :: rs) ⟨key, datarid⟩ leaf.file.blocks e ∧
      NewFilled f.blocks leaf.file.blocks := by
  have hlen : blk < f.blocks.length := (List.getElem?_eq_some_iff.mp hblk).1
  obtain ⟨stale, stale', hsplit, hroom, hroom', -, -⟩ :=
    exists_split (B := B) [] (r :: rs) hpin hblk h.suits h.room_page flag
  obtain ⟨z, stale, rfl⟩ : ∃ z tail, stale = z :: tail := by
    cases stale with
    | nil =>
      exact absurd hroom (Nat.ne_of_lt (Nat.lt_of_le_of_lt (Nat.zero_le _) (lt_capacity h.fits)))
    | cons z tail => exact ⟨z, tail, rfl⟩
  have hpin' : blk ∈ f.blocks.length :: f.pins := List.mem_cons_of_mem _ hpin
  have hinsert := insertAt_set_append (L := L) slot datarid (-1) [] [] z stale
    [page flag (r :: rs) stale'] hpin' hlen (fun r hr => by cases hr) hkey
  refine ⟨⟨⟨f.blocks.set blk (page (-1) [⟨key, datarid⟩] stale) ++ [page flag (r :: rs) stale'],
    f.blocks.length :: f.pins⟩, blk, 0, key⟩, some ⟨r.dataval, f.blocks.length⟩, ?_, ?_,
    newFilled_append f.blocks blk _ stale' (List.cons_ne_nil r rs)⟩
  · have hsplit' : f.split L B blk 0 flag = _ := hsplit
    unfold BTreeLeaf.insertBelow BTreeLeaf.page
    dsimp only
    rw [contents_eq hpin hblk, ok_bind, getDataVal_head (h.suits r List.mem_cons_self), ok_bind]
    rw [show (page flag (r :: rs) rest).getFlag = flag from rfl, hsplit', ok_bind]
    dsimp only
    rw [setFlag_set_append hpin' hlen, ok_bind]
    exact (congrArg (· >>= _) hinsert).trans rfl
  · refine .divided _ _ (-1) flag [⟨key, datarid⟩] (r :: rs) r.dataval
      (isLeaf_page ?_ ?_ ?_ ?_) (isLeaf_page hroom' h.suits h.sorted h.fits) (List.Perm.refl _)
      ?_ ?_ rfl (List.cons_ne_nil _ _) (Or.inr ⟨rfl, rfl, fun _ => rfl⟩)
    · exact (Nat.add_comm _ _).trans ((Nat.zero_add _).symm.trans hroom)
    · intro a ha
      rw [List.mem_singleton.mp ha]
      exact hkey
    · exact List.pairwise_singleton _ _
    · exact hone
    · intro a ha
      rw [List.mem_singleton.mp ha]
      exact hlt
    · intro a ha
      cases ha with
      | head => exact le_refl _
      | tail _ ha => exact (List.pairwise_cons.mp h.sorted).1 a ha

/-- The records of a page that has become full, and the slots behind them. -/
structure Filled (B : BlockSize) (L : Layout) (flag : ℤ) (rs rs' : List (Record Rid))
    (rest : List (Option (Record Rid))) (r : Record Rid) : Prop where
  room : rs'.length + rest.length = capacity B L
  suits : ∀ a ∈ rs', Suits L a.dataval
  sorted : Sorted Record.dataval rs'
  fits : 8 + rs'.length * L.slotSize < B.bytes
  perm : rs'.Perm (r :: rs)
  chain : ChainKept flag rs flag rs'

/-- A part of the records fits on a page. -/
theorem fits_part {n m : ℕ} (h : 8 + m * L.slotSize < B.bytes) (hlt : n < m) :
    8 + (n + 1) * L.slotSize < B.bytes :=
  Nat.lt_of_le_of_lt (Nat.add_le_add_left (Nat.mul_le_mul_right _ hlt) 8) h

theorem addOverflow_page {blocks : List (Contents Rid)} {pins : List ℕ} {r first : Record Rid}
    {tail : List (Record Rid)} (hpin : blk ∈ pins) (hlen : blk < blocks.length)
    (h : Filled B L flag rs (first :: tail) rest r) (htail : tail ≠ [])
    (hall : ∀ a ∈ tail, a.dataval = first.dataval) :
    ∃ leaf e, BTreeLeaf.addOverflow L B
        ⟨⟨blocks.set blk (page flag (first :: tail) rest), pins⟩, blk, slot, key⟩
        (page flag (first :: tail) rest) = .ok (leaf, e) ∧
      Inserted B L blocks blk flag rs r leaf.file.blocks e ∧
      NewFilled blocks leaf.file.blocks := by
  obtain ⟨stale, stale', hsplit, hroom, hroom', -, -⟩ := exists_split (B := B) (L := L)
    (f := ⟨blocks.set blk (page flag (first :: tail) rest), pins⟩) [first] tail hpin
    (List.getElem?_set_self hlen) (fun a ha => h.suits a (List.mem_cons_of_mem _ ha)) h.room flag
  dsimp only at hsplit
  rw [List.set_set, List.length_set] at hsplit
  have hpos : 0 < tail.length := List.length_pos_iff.mpr htail
  have hfits := h.fits
  rw [List.length_cons] at hfits
  refine ⟨⟨⟨blocks.set blk (page blocks.length [first] stale) ++ [page flag tail stale'],
    blocks.length :: pins⟩, blk, slot, key⟩, none, ?_, ?_,
    newFilled_append blocks blk _ stale' htail⟩
  · have hsplit' : IndexFile.split L B ⟨blocks.set blk (page flag (first :: tail) rest), pins⟩ blk 1
      flag = _ := hsplit
    unfold BTreeLeaf.addOverflow
    dsimp only
    rw [show (page flag (first :: tail) rest).getFlag = flag from rfl, hsplit', ok_bind]
    dsimp only
    rw [setFlag_set_append (List.mem_cons_of_mem _ hpin) hlen]
    rfl
  · refine .continued _ _ [first] tail first.dataval (isLeaf_page hroom ?_ ?_ ?_)
      (isLeaf_page hroom' ?_ ?_ ?_) h.perm (List.cons_ne_nil _ _) ?_
    · intro a ha
      exact h.suits a (List.mem_singleton.mp ha ▸ List.mem_cons_self)
    · exact List.pairwise_singleton _ _
    · exact fits_part hfits (Nat.succ_lt_succ hpos)
    · exact fun a ha => h.suits a (List.mem_cons_of_mem _ ha)
    · exact (List.pairwise_cons.mp h.sorted).2
    · exact fits_part hfits (Nat.lt_succ_self _)
    · intro a ha
      cases ha with
      | head => rfl
      | tail _ ha => exact hall a ha

theorem splitMiddle_page {blocks : List (Contents Rid)} {pins : List ℕ} {r first last : Record Rid}
    {middle : List (Record Rid)} (hpin : blk ∈ pins) (hlen : blk < blocks.length)
    (h : Filled B L flag rs (first :: middle ++ [last]) rest r)
    (hne : first.dataval ≠ last.dataval) :
    ∃ leaf e, BTreeLeaf.splitMiddle L B
        ⟨⟨blocks.set blk (page flag (first :: middle ++ [last]) rest), pins⟩, blk, slot, key⟩
        (page flag (first :: middle ++ [last]) rest) first.dataval = .ok (leaf, e) ∧
      Inserted B L blocks blk flag rs r leaf.file.blocks e ∧
      NewFilled blocks leaf.file.blocks := by
  obtain ⟨front, z, back, hlist, hfront, hlt, hfind⟩ :=
    findSplit_page flag rest h.sorted h.suits hne
  obtain ⟨a, front, rfl⟩ : ∃ a tail, front = a :: tail := by
    cases front with
    | nil => exact absurd rfl hfront
    | cons a tail => exact ⟨a, tail, rfl⟩
  rw [hlist] at h hfind ⊢
  obtain ⟨stale, stale', hsplit, hroom, hroom', -, -⟩ := exists_split (B := B) (L := L)
    (f := ⟨blocks.set blk (page flag (a :: front ++ z :: back) rest), pins⟩) (a :: front)
    (z :: back) hpin (List.getElem?_set_self hlen)
      (fun a ha => h.suits a (List.mem_append_right _ ha)) h.room
    (-1)
  dsimp only at hsplit
  rw [List.set_set, List.length_set] at hsplit
  obtain ⟨hsfront, hsback, -⟩ := sorted_append.mp h.sorted
  have hfits := h.fits
  rw [List.length_append] at hfits
  refine ⟨⟨⟨blocks.set blk (page flag (a :: front) stale) ++ [page (-1) (z :: back) stale'],
    blocks.length :: pins⟩, blk, slot, key⟩, some ⟨z.dataval, blocks.length⟩, ?_, ?_,
    newFilled_append blocks blk _ stale' (List.cons_ne_nil z back)⟩
  · unfold BTreeLeaf.splitMiddle
    rw [hfind, ok_bind]
    dsimp only
    rw [hsplit]
    rfl
  · refine .divided _ _ flag (-1) (a :: front) (z :: back) z.dataval
      (isLeaf_page hroom (fun a ha => h.suits a (List.mem_append_left _ ha)) hsfront
        (fits_part hfits ?_))
      (isLeaf_page hroom' (fun a ha => h.suits a (List.mem_append_right _ ha)) hsback
        (fits_part hfits ?_)) h.perm hlt ?_ rfl (List.cons_ne_nil _ _) (Or.inl ⟨h.chain, rfl⟩)
    · rw [List.length_cons (a := z)]
      omega
    · rw [List.length_cons (a := a)]
      omega
    · intro b hb
      cases hb with
      | head => exact le_refl _
      | tail _ hb => exact (List.pairwise_cons.mp hsback).1 b hb

theorem exists_ends {rs : List (Record Rid)} (h : 2 ≤ rs.length) :
    ∃ first middle last, rs = first :: middle ++ [last] := by
  cases rs with
  | nil => cases h
  | cons first tail =>
    cases List.eq_nil_or_concat tail with
    | inl hnil =>
      rw [hnil] at h
      exact absurd h (Nat.not_le_of_lt (Nat.lt_succ_self 1))
    | inr hconcat =>
      obtain ⟨middle, last, rfl⟩ := hconcat
      exact ⟨first, middle, last, by rw [List.concat_eq_append]; rfl⟩

/-- Between equal ends all keys are equal. -/
theorem eq_first {first last : Record Rid} {middle : List (Record Rid)}
    (h : Sorted Record.dataval (first :: middle ++ [last])) (heq : last.dataval = first.dataval) :
    ∀ a ∈ middle ++ [last], a.dataval = first.dataval := by
  intro a ha
  have hfirst : first.dataval ≤ a.dataval := (List.pairwise_cons.mp h).1 a ha
  refine le_antisymm ?_ hfirst
  cases List.mem_append.mp ha with
  | inl hmem =>
    rw [← heq]
    exact (sorted_append.mp h).2.2 a (List.mem_cons_of_mem _ hmem) last List.mem_cons_self
  | inr hmem =>
    rw [List.mem_singleton.mp hmem]
    exact heq.le

theorem splitFull_page (slot : ℤ) (key : Value) {blocks : List (Contents Rid)} {pins : List ℕ}
    {r : Record Rid}
    {rs' : List (Record Rid)} (hpin : blk ∈ pins) (hlen : blk < blocks.length)
    (h : Filled B L flag rs rs' rest r) (htwo : 2 ≤ rs'.length) :
    ∃ leaf e, BTreeLeaf.splitFull L B
        ⟨⟨blocks.set blk (page flag rs' rest), pins⟩, blk, slot, key⟩ = .ok (leaf, e) ∧
      Inserted B L blocks blk flag rs r leaf.file.blocks e ∧
      NewFilled blocks leaf.file.blocks := by
  obtain ⟨first, middle, last, rfl⟩ := exists_ends htwo
  have hfirst : Suits L first.dataval := h.suits first List.mem_cons_self
  have hlast : Suits L last.dataval := h.suits last (List.mem_append_right _ List.mem_cons_self)
  have hget := contents_set_append [] hpin hlen
    (page flag (first :: middle ++ [last]) rest)
  rw [List.append_nil] at hget
  have hpos : (page flag (first :: middle ++ [last]) rest).numRecs - 1 =
      (first :: middle).length := by
    show ((first :: middle ++ [last]).length : ℤ) - 1 = _
    rw [List.length_append, List.length_singleton]
    omega
  have hstep : BTreeLeaf.splitFull L B
      ⟨⟨blocks.set blk (page flag (first :: middle ++ [last]) rest), pins⟩, blk, slot, key⟩ =
      if decide (last.dataval = first.dataval) = true then
        BTreeLeaf.addOverflow L B
          ⟨⟨blocks.set blk (page flag (first :: middle ++ [last]) rest), pins⟩, blk, slot, key⟩
          (page flag (first :: middle ++ [last]) rest)
      else BTreeLeaf.splitMiddle L B
        ⟨⟨blocks.set blk (page flag (first :: middle ++ [last]) rest), pins⟩, blk, slot, key⟩
        (page flag (first :: middle ++ [last]) rest) first.dataval := by
    unfold BTreeLeaf.splitFull BTreeLeaf.page
    dsimp only
    rw [hget, ok_bind, hpos, getDataVal_page _ _ _ _ hlast]
    rw [List.cons_append, getDataVal_head hfirst, ok_bind, ok_bind,
      equal_eq (hlast.sameKind hfirst), ok_bind]
  rw [hstep]
  by_cases heq : last.dataval = first.dataval
  · rw [if_pos (decide_eq_true heq)]
    exact addOverflow_page hpin hlen h (by simp) (eq_first h.sorted heq)
  · rw [if_neg (fun hd => heq (of_decide_eq_true hd))]
    exact splitMiddle_page hpin hlen h (Ne.symm heq)

/-- A page that keeps its first key keeps the overflow blocks of it. -/
theorem chainKept_insert (datarid : Rid) (hflag : flag = -1 ∨ 0 ≤ flag ∧ rs ≠ [])
    (hnot : 0 ≤ flag → ∀ r, rs.head? = some r → ¬ key < r.dataval) :
    ChainKept flag rs flag
      (before Record.dataval key rs ++ ⟨key, datarid⟩ :: behind Record.dataval key rs) := by
  refine ⟨rfl, fun hpos => ?_⟩
  cases rs with
  | nil =>
    cases hflag with
    | inl h => omega
    | inr h => exact absurd rfl h.2
  | cons r rs =>
    have hle : r.dataval ≤ key := not_lt.mp (hnot hpos r rfl)
    unfold before
    rw [List.takeWhile_cons]
    by_cases hlt : r.dataval < key
    · rw [if_pos (decide_eq_true hlt)]
      rfl
    · rw [if_neg (fun hd => hlt (of_decide_eq_true hd))]
      exact congrArg some (le_antisymm (not_lt.mp hlt) hle)

theorem isBelow_page (slot : ℤ) (hpin : blk ∈ f.pins)
    (hblk : f.blocks[blk]? = some (page flag rs rest))
    (hsuits : ∀ r ∈ rs, Suits L r.dataval) (hkey : Suits L key)
    (hflag : flag = -1 ∨ 0 ≤ flag ∧ rs ≠ []) :
    BTreeLeaf.isBelow L ⟨f, blk, slot, key⟩ =
      .ok (decide (0 ≤ flag ∧ ∃ r, rs.head? = some r ∧ key < r.dataval)) := by
  unfold BTreeLeaf.isBelow BTreeLeaf.page
  dsimp only
  rw [contents_eq hpin hblk, ok_bind]
  show (if flag ≥ 0 then _ else _) = _
  cases hflag with
  | inl h =>
    rw [if_neg (by omega), decide_eq_false (fun hd => by omega)]
    rfl
  | inr h =>
    cases rs with
    | nil => exact absurd rfl h.2
    | cons r rs =>
      have hr : Suits L r.dataval := hsuits r List.mem_cons_self
      rw [if_pos h.1, getDataVal_head hr, ok_bind, greater_eq (hr.sameKind hkey)]
      refine congrArg Except.ok (decide_eq_decide.mpr ⟨fun hlt => ⟨h.1, r, rfl, hlt⟩, ?_⟩)
      rintro ⟨-, r', hr', hlt⟩
      exact Option.some.inj hr' ▸ hlt

/-- Insertion into a page that is not below its overflow blocks. -/
theorem insert_eq (datarid : Rid) {leaf : BTreeLeaf} {blocks : List (Contents Rid)} {pins : List ℕ}
    (hpin : blk ∈ pins) (hlen : blk < blocks.length) (hbelow : leaf.isBelow L = .ok false)
    (hinsert : leaf.insertAt L (leaf.currentSlot + 1) datarid =
      .ok ⟨⟨blocks.set blk c, pins⟩, blk, slot, key⟩) :
    leaf.insert L B datarid =
      if c.isFull L B = true then
        BTreeLeaf.splitFull L B ⟨⟨blocks.set blk c, pins⟩, blk, slot, key⟩
      else .ok (⟨⟨blocks.set blk c, pins⟩, blk, slot, key⟩, none) := by
  have hget := contents_set_append [] hpin hlen c
  rw [List.append_nil] at hget
  unfold BTreeLeaf.insert
  rw [hbelow, ok_bind, if_neg Bool.false_ne_true, hinsert, ok_bind]
  unfold BTreeLeaf.page
  dsimp only
  rw [hget, ok_bind]
  rfl

theorem exists_insert_filled (hone : 8 + 2 * L.slotSize < B.bytes)
    (hblk : f.blocks[blk]? = some c)
    (h : IsLeaf B L c flag rs) (hflag : flag = -1 ∨ 0 ≤ flag ∧ rs ≠ []) (hkey : Suits L key)
    (datarid : Rid) :
    ∃ leaf leaf' e, BTreeLeaf.new L f blk key = .ok leaf ∧
      leaf.insert L B datarid = .ok (leaf', e) ∧
      Inserted B L f.blocks blk flag rs ⟨key, datarid⟩ leaf'.file.blocks e ∧
      NewFilled f.blocks leaf'.file.blocks := by
  have hlen : blk < f.blocks.length := (List.getElem?_eq_some_iff.mp hblk).1
  obtain ⟨rest, rfl⟩ := h.form
  have hroom := h.room_page
  obtain ⟨z, rest, rfl⟩ : ∃ z tail, rest = z :: tail := by
    have hcap := lt_capacity h.fits
    cases rest with
    | nil => exact absurd hroom (Nat.ne_of_lt hcap)
    | cons z tail => exact ⟨z, tail, rfl⟩
  have hpin : blk ∈ (f.pin blk).pins := List.mem_cons_self
  have hopen : BTreeLeaf.new L f blk key = .ok ⟨f.pin blk, blk,
      (before Record.dataval key rs).length - 1, key⟩ := by
    unfold BTreeLeaf.new
    dsimp only
    rw [contents_eq hpin hblk, ok_bind, findSlotBefore_page hkey.compares rs h.suits]
    rfl
  have hbelow := isBelow_page ((before Record.dataval key rs).length - 1) hpin hblk h.suits hkey
    hflag
  by_cases hlt : 0 ≤ flag ∧ ∃ r, rs.head? = some r ∧ key < r.dataval
  · obtain ⟨hpos, r, hr, hlt'⟩ := hlt
    obtain ⟨rs, rfl⟩ : ∃ tail, rs = r :: tail := by
      cases rs with
      | nil => cases hr
      | cons r' rs => exact ⟨rs, by rw [Option.some.inj hr]⟩
    obtain ⟨leaf', e, hrun, hinserted⟩ := insertBelow_page
      ((before Record.dataval key (r :: rs)).length - 1) datarid hone hpin hblk h hkey hlt'
    refine ⟨_, leaf', e, hopen, ?_, hinserted⟩
    unfold BTreeLeaf.insert
    rw [hbelow, ok_bind, decide_eq_true ⟨hpos, r, hr, hlt'⟩, if_pos rfl]
    exact hrun
  · have hnot : 0 ≤ flag → ∀ r, rs.head? = some r → ¬ key < r.dataval :=
      fun hpos r hr hk => hlt ⟨hpos, r, hr, hk⟩
    have hsplit := before_append_behind Record.dataval key rs
    have hblk' : (f.pin blk).blocks[blk]? = some (page flag
        (before Record.dataval key rs ++ behind Record.dataval key rs) (z :: rest)) := by
      rw [hsplit]
      exact hblk
    have hsuits' : ∀ a ∈ behind Record.dataval key rs, Suits L a.dataval := fun a ha =>
      h.suits a ((List.dropWhile_sublist _).subset ha)
    have hinsert := insertAt_page ((before Record.dataval key rs).length - 1) datarid hpin hblk'
      hsuits' hkey
    have hperm := insert_perm Record.dataval ⟨key, datarid⟩ rs
    have hsorted := h.sorted.insert ⟨key, datarid⟩
    have hchain := chainKept_insert datarid hflag hnot
    dsimp only at hperm hsorted
    generalize before Record.dataval key rs ++ ⟨key, datarid⟩ :: behind Record.dataval key rs = rs'
      at hinsert hperm hsorted hchain
    have hsuits : ∀ a ∈ rs', Suits L a.dataval := by
      intro a ha
      cases hperm.mem_iff.mp ha with
      | head => exact hkey
      | tail _ hmem => exact h.suits a hmem
    have hcount : rs'.length = rs.length + 1 := hperm.length_eq
    have hroom' : rs'.length + rest.length = capacity B L := by
      rw [List.length_cons] at hroom
      omega
    have hrun := insert_eq (B := B) datarid (c := page flag rs' rest) hpin hlen
      (hbelow.trans (congrArg Except.ok (decide_eq_false hlt))) (by
        dsimp only
        rw [Int.sub_add_cancel]
        exact hinsert)
    by_cases hfull : (page flag rs' rest).isFull L B = true
    · have htwo : 2 ≤ rs'.length := by
        have hbytes := (isFull_page rs').mp hfull
        by_contra hlt
        have hmul : (rs'.length + 1) * L.slotSize ≤ 2 * L.slotSize :=
          Nat.mul_le_mul_right _ (by omega)
        omega
      obtain ⟨leaf', e, hsplit, hinserted⟩ := splitFull_page
        (before Record.dataval key rs).length key hpin hlen
        ⟨hroom', hsuits, hsorted, hcount ▸ h.fits, hperm, hchain⟩ htwo
      rw [if_pos hfull] at hrun
      exact ⟨_, leaf', e, hopen, hrun.trans hsplit, hinserted⟩
    · have hfits : 8 + (rs'.length + 1) * L.slotSize < B.bytes :=
        Nat.lt_of_not_le (fun hle => hfull ((isFull_page rs').mpr hle))
      rw [if_neg hfull] at hrun
      exact ⟨_, _, none, hopen, hrun,
        .whole _ rs' (isLeaf_page hroom' hsuits hsorted hfits) hperm hchain,
        newFilled_set f.blocks blk _⟩

theorem exists_insert (hone : 8 + 2 * L.slotSize < B.bytes) (hblk : f.blocks[blk]? = some c)
    (h : IsLeaf B L c flag rs) (hflag : flag = -1 ∨ 0 ≤ flag ∧ rs ≠ []) (hkey : Suits L key)
    (datarid : Rid) :
    ∃ leaf leaf' e, BTreeLeaf.new L f blk key = .ok leaf ∧
      leaf.insert L B datarid = .ok (leaf', e) ∧
      Inserted B L f.blocks blk flag rs ⟨key, datarid⟩ leaf'.file.blocks e := by
  obtain ⟨leaf, leaf', e, hopen, hrun, hinserted, -⟩ :=
    exists_insert_filled hone hblk h hflag hkey datarid
  exact ⟨leaf, leaf', e, hopen, hrun, hinserted⟩

end Files

end SampleDB.LeafInsertion
