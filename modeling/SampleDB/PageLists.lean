import SampleDB.BTreePages

/-!
Pages as lists of records. The records of a page are in its first slots, and what the other
slots hold does not matter to inserting, removing and splitting: these are the operations
of lists.
-/
namespace SampleDB.PageLists

open Words Pages Blocks Schemas Rollback TableScans KeyOrder BTreePages

/-- The page with these records, and with these slots behind them. -/
def page {P : Type} (flag : ℤ) (rs : List (Record P)) (rest : List (Option (Record P))) :
    Contents P :=
  ⟨flag, rs.length, rs.map some ++ rest⟩

/-- The value goes into the key field as it is. -/
def Suits (L : Layout) (val : Value) : Prop := L.stored val = .ok val

instance (L : Layout) (val : Value) : Decidable (Suits L val) := by
  unfold Suits
  exact inferInstance

section Values

variable {L : Layout} {a b : Value}

theorem Suits.not_boolean (h : Suits L a) : L.dataval ≠ .boolean := by
  intro hbool
  unfold Suits Layout.stored at h
  rw [hbool] at h
  cases h

theorem Suits.sameKind (ha : Suits L a) (hb : Suits L b) : SameKind a b := by
  unfold Suits Layout.stored at ha hb
  cases hL : L.dataval <;> rw [hL] at ha hb <;> cases a <;> cases b <;> trivial

/-- The key can be compared with the values of the key field. -/
def Compares (L : Layout) (key : Value) : Prop := ∀ v, Suits L v → SameKind v key

theorem Suits.compares (h : Suits L a) : Compares L a := fun _ hv => hv.sameKind h

theorem Suits.default (h : L.dataval ≠ .boolean) : Suits L L.defaultValue := by
  unfold Suits Layout.stored Layout.defaultValue
  cases hL : L.dataval with
  | integer => rfl
  | varchar => exact if_pos (Nat.zero_le _)
  | boolean => exact absurd hL h

end Values

section Slots

variable {P : Type} {L : Layout} {c : Contents P} {r : Record P} {i j : ℕ}

theorem record_eq (hL : L.dataval ≠ .boolean) (h : c.slots[i]? = some (some r)) :
    c.record L i = .ok r := by
  unfold Contents.record
  rw [if_pos (Int.natCast_nonneg i), Int.toNat_natCast, h]
  exact if_neg hL

theorem setRecord_eq {v : Value} {d : P} (hv : Suits L v) (hi : i < c.slots.length) :
    c.setRecord L i v d = .ok { c with slots := c.slots.set i (some ⟨v, d⟩) } := by
  unfold Contents.setRecord
  rw [hv]
  exact if_pos ⟨Int.natCast_nonneg i, Int.ofNat_lt.mpr hi⟩

theorem copyRecord_eq (hr : Suits L r.dataval) (h : c.slots[i]? = some (some r))
    (hj : j < c.slots.length) :
    c.copyRecord L i j = .ok { c with slots := c.slots.set j (some r) } := by
  unfold Contents.copyRecord
  rw [record_eq hr.not_boolean h]
  exact setRecord_eq hr hj

theorem getElem?_middle {α : Type} (pre post : List α) (x : α) :
    (pre ++ x :: post)[pre.length]? = some x := by
  rw [List.getElem?_append_right (Nat.le_refl _), Nat.sub_self]
  rfl

theorem getElem?_after {α : Type} (pre post : List α) (x y : α) :
    (pre ++ x :: y :: post)[pre.length + 1]? = some y := by
  rw [List.getElem?_append_right (Nat.le_add_right _ 1), Nat.add_sub_cancel_left]
  rfl

theorem set_append_self {α : Type} {l : List α} {i : ℕ} (tail : List α) (x : α)
    (h : i < l.length) : (l.set i x ++ tail)[i]? = some x := by
  rw [List.getElem?_append_left (by rw [List.length_set]; exact h), List.getElem?_set_self h]

theorem set_append_ne {α : Type} {l : List α} {i j : ℕ} (tail : List α) (x : α) (h : j ≠ i)
    (hj : j < l.length) : (l.set i x ++ tail)[j]? = l[j]? := by
  rw [List.getElem?_append_left (by rw [List.length_set]; exact hj),
    List.getElem?_set_ne (Ne.symm h)]

theorem set_append_new {α : Type} (l : List α) (i : ℕ) (x y : α) :
    (l.set i x ++ [y])[l.length]? = some y := by
  rw [List.getElem?_append_right (by rw [List.length_set]), List.length_set, Nat.sub_self]
  rfl

theorem set_middle {α : Type} (pre post : List α) (x y : α) :
    (pre ++ x :: post).set pre.length y = pre ++ y :: post := by
  rw [List.set_append_right _ _ (Nat.le_refl _), Nat.sub_self]
  rfl

theorem set_after {α : Type} (pre post : List α) (x y z : α) :
    (pre ++ x :: y :: post).set (pre.length + 1) z = pre ++ x :: z :: post := by
  rw [List.set_append_right _ _ (Nat.le_add_right _ 1), Nat.add_sub_cancel_left]
  rfl

variable (flag n : ℤ) (pre rest : List (Option (Record P)))

theorem copyRecord_up {y : Record P} (hy : Suits L y.dataval) (z : Option (Record P)) :
    Contents.copyRecord L ⟨flag, n, pre ++ some y :: z :: rest⟩ pre.length
      (pre.length + 1 : ℕ) = .ok ⟨flag, n, pre ++ some y :: some y :: rest⟩ := by
  rw [copyRecord_eq hy (getElem?_middle _ _ _), set_after]
  rw [List.length_append, List.length_cons, List.length_cons]
  omega

theorem copyRecord_down {y : Record P} (hy : Suits L y.dataval) (x : Option (Record P)) :
    Contents.copyRecord L ⟨flag, n, pre ++ x :: some y :: rest⟩ (pre.length + 1 : ℕ)
      pre.length = .ok ⟨flag, n, pre ++ some y :: some y :: rest⟩ := by
  rw [copyRecord_eq hy (getElem?_after _ _ _ _), set_middle]
  rw [List.length_append, List.length_cons, List.length_cons]
  omega

/-- Copying from the last record down leaves the first slot as it was. -/
theorem shiftUp_eq (ys : List (Record P)) (z : Option (Record P))
    (hys : ∀ r ∈ ys, Suits L r.dataval) :
    ∃ w, Contents.shiftUp L ys.length (pre.length + ys.length : ℕ)
      ⟨flag, n, pre ++ (ys.map some ++ z :: rest)⟩ =
        .ok ⟨flag, n, pre ++ w :: (ys.map some ++ rest)⟩ := by
  induction ys using List.reverseRecOn generalizing z rest with
  | nil => exact ⟨z, rfl⟩
  | append_singleton ys y ih =>
    have hy : Suits L y.dataval := hys y (List.mem_append_right _ List.mem_cons_self)
    obtain ⟨w, hw⟩ := ih (some y :: rest) (some y)
      (fun r hr => hys r (List.mem_append_left _ hr))
    refine ⟨w, ?_⟩
    have hcopy := copyRecord_up flag n (pre ++ ys.map some) rest hy z
    rw [List.length_append, List.length_map, List.append_assoc, List.append_assoc] at hcopy
    rw [List.length_append, List.length_singleton, List.map_append, List.append_assoc,
      List.append_assoc]
    unfold Contents.shiftUp
    rw [show ((pre.length + (ys.length + 1) : ℕ) : ℤ) - 1 = (pre.length + ys.length : ℕ) by omega]
    exact (congrArg (· >>= _) hcopy).trans hw

/-- Copying from the slot up leaves the last record in its place as well. -/
theorem shiftDown_eq (r : Record P) (ys : List (Record P))
    (hys : ∀ r ∈ ys, Suits L r.dataval) :
    Contents.shiftDown L ys.length (pre.length + 1 : ℕ)
      ⟨flag, n, pre ++ some r :: (ys.map some ++ rest)⟩ =
        .ok ⟨flag, n, pre ++ (ys.map some ++ (r :: ys).getLast? :: rest)⟩ := by
  induction ys generalizing pre r with
  | nil => rfl
  | cons y ys ih =>
    have hcopy := copyRecord_down flag n pre (ys.map some ++ rest) (hys y List.mem_cons_self)
      (some r)
    have hrest := ih (pre ++ [some y]) y (fun r hr => hys r (List.mem_cons_of_mem _ hr))
    rw [List.length_append, List.length_singleton, List.append_assoc, List.append_assoc] at hrest
    rw [List.length_cons, Contents.shiftDown,
      show ((pre.length + 1 : ℕ) : ℤ) - 1 = pre.length by omega]
    exact (congrArg (· >>= _) hcopy).trans hrest

end Slots

section Lists

variable {P : Type} {L : Layout} {flag : ℤ} {rest : List (Option (Record P))}

theorem page_length (flag : ℤ) (rs : List (Record P)) (rest : List (Option (Record P))) :
    (page flag rs rest).slots.length = rs.length + rest.length := by
  show (rs.map some ++ rest).length = _
  rw [List.length_append, List.length_map]

theorem record_page (hL : L.dataval ≠ .boolean) (xs ys : List (Record P)) (r : Record P) :
    (page flag (xs ++ r :: ys) rest).record L xs.length = .ok r := by
  apply record_eq hL
  show ((xs ++ r :: ys).map some ++ rest)[xs.length]? = _
  have hlen : xs.length = (xs.map some).length := (List.length_map some).symm
  rw [List.map_append, List.map_cons, List.append_assoc, hlen]
  exact getElem?_middle _ _ _

theorem insert_page (flag : ℤ) (rest : List (Option (Record P))) (xs ys : List (Record P))
    (z : Option (Record P))
    (hys : ∀ r ∈ ys, Suits L r.dataval) :
    ∃ w, (page flag (xs ++ ys) (z :: rest)).insert L xs.length =
      .ok ⟨flag, (xs ++ ys).length + 1, xs.map some ++ w :: (ys.map some ++ rest)⟩ := by
  obtain ⟨w, hw⟩ := shiftUp_eq flag (xs ++ ys).length (xs.map some) rest ys z hys
  refine ⟨w, ?_⟩
  rw [List.length_map] at hw
  unfold Contents.insert page
  rw [List.map_append, List.append_assoc, List.length_append,
    show (((xs.length + ys.length : ℕ) : ℤ) - xs.length).toNat = ys.length by omega]
  rw [List.length_append] at hw
  rw [hw]
  rfl

/-- Inserting a record is inserting in the list. It takes one of the other slots. -/
theorem insertRecord_page (flag : ℤ) (rest : List (Option (Record P))) (xs ys : List (Record P))
    (z : Option (Record P)) {v : Value} (d : P)
    (hys : ∀ r ∈ ys, Suits L r.dataval) (hv : Suits L v) :
    (page flag (xs ++ ys) (z :: rest)).insertRecord L xs.length v d =
      .ok (page flag (xs ++ ⟨v, d⟩ :: ys) rest) := by
  obtain ⟨w, hw⟩ := insert_page flag rest xs ys z hys
  unfold Contents.insertRecord
  rw [hw]
  show Contents.setRecord L _ _ v d = _
  rw [setRecord_eq hv]
  · unfold page
    congr 2
    · show (((xs ++ ys).length : ℤ) + 1) = _
      rw [List.length_append, List.length_append, List.length_cons]
      omega
    · have hlen : xs.length = (xs.map some).length := (List.length_map some).symm
      rw [hlen, set_middle, List.map_append, List.map_cons, List.append_assoc]
      rfl
  · show xs.length < (xs.map some ++ w :: (ys.map some ++ rest)).length
    rw [List.length_append, List.length_map, List.length_cons]
    omega

/-- Removing a record leaves the last one behind the end. -/
theorem remove_page (flag : ℤ) (rest : List (Option (Record P))) (xs ys : List (Record P))
    (r : Record P)
    (hys : ∀ r ∈ ys, Suits L r.dataval) :
    (page flag (xs ++ r :: ys) rest).remove L xs.length =
      .ok (page flag (xs ++ ys) ((r :: ys).getLast? :: rest)) := by
  have hdown := shiftDown_eq flag (xs ++ r :: ys).length (xs.map some) rest r ys hys
  rw [List.length_map] at hdown
  unfold Contents.remove page
  rw [List.map_append, List.map_cons, List.append_assoc,
    show (((xs ++ r :: ys).length : ℤ) - ((xs.length : ℤ) + 1)).toNat = ys.length by
      rw [List.length_append, List.length_cons]
      omega]
  rw [List.cons_append]
  rw [show ((xs.length : ℤ) + 1) = (xs.length + 1 : ℕ) from rfl, hdown]
  show Except.ok _ = _
  unfold Contents.setNumRecs
  congr 2
  · show (((xs ++ r :: ys).length : ℤ) - 1) = _
    rw [List.length_append, List.length_append, List.length_cons]
    omega
  · rw [List.map_append, List.append_assoc]

/-- The records from the slot on go to the end of the other page. -/
theorem transferFrom_page (flag flag' : ℤ) (rest stale : List (Option (Record P)))
    (xs ys zs : List (Record P)) (hys : ∀ r ∈ ys, Suits L r.dataval)
    (hroom : ys.length ≤ stale.length) :
    Contents.transferFrom L xs.length ys.length zs.length (page flag (xs ++ ys) rest)
      (page flag' zs stale) =
        .ok (page flag xs (List.replicate ys.length ys.getLast? ++ rest),
          page flag' (zs ++ ys) (stale.drop ys.length)) := by
  induction ys generalizing rest stale zs with
  | nil =>
    rw [List.append_nil, List.append_nil]
    rfl
  | cons y ys ih =>
    obtain ⟨z, stale, rfl⟩ : ∃ z stale', stale = z :: stale' := by
      cases stale with
      | nil => cases hroom
      | cons z stale => exact ⟨z, stale, rfl⟩
    have hy : Suits L y.dataval := hys y List.mem_cons_self
    have htail : ∀ r ∈ ys, Suits L r.dataval := fun r hr => hys r (List.mem_cons_of_mem _ hr)
    have hadd := insertRecord_page flag' stale zs [] z y.data (fun r hr => by cases hr) hy
    rw [List.append_nil] at hadd
    have hremove := remove_page flag rest xs ys y htail
    have hnext := ih ((y :: ys).getLast? :: rest) stale (zs ++ [y]) htail
      (Nat.le_of_succ_le_succ hroom)
    rw [List.length_append, List.length_singleton] at hnext
    unfold Contents.insertRecord at hadd
    obtain ⟨p, hp, hset⟩ := bind_eq_ok.mp hadd
    rw [List.length_cons, Contents.transferFrom, hp, ok_bind, record_page hy.not_boolean, ok_bind,
      hset, ok_bind, hremove, ok_bind]
    refine hnext.trans ?_
    rw [List.append_assoc, List.drop_succ_cons, List.replicate_succ', List.append_assoc]
    cases ys with
    | nil => rfl
    | cons y' ys => rfl

theorem transferRecs_page (flag flag' : ℤ) (rest stale : List (Option (Record P)))
    (xs ys : List (Record P)) (hys : ∀ r ∈ ys, Suits L r.dataval)
    (hroom : ys.length ≤ stale.length) :
    (page flag (xs ++ ys) rest).transferRecs L xs.length (page flag' [] stale) =
      .ok (page flag xs (List.replicate ys.length ys.getLast? ++ rest),
        page flag' ys (stale.drop ys.length)) := by
  unfold Contents.transferRecs
  rw [show ((page flag (xs ++ ys) rest).numRecs - xs.length).toNat = ys.length by
    show (((xs ++ ys).length : ℤ) - xs.length).toNat = _
    rw [List.length_append]
    omega]
  exact transferFrom_page flag flag' rest stale xs ys [] hys hroom

theorem findFrom_page (flag : ℤ) (rest : List (Option (Record P))) {key : Value}
    (hkey : Compares L key) (xs ys : List (Record P)) (hys : ∀ r ∈ ys, Suits L r.dataval) :
    (page flag (xs ++ ys) rest).findFrom L key ys.length xs.length =
      .ok ((xs.length + (ys.takeWhile (fun r => r.dataval < key)).length : ℕ) - 1) := by
  induction ys generalizing xs with
  | nil => rfl
  | cons y ys ih =>
    have hy : Suits L y.dataval := hys y List.mem_cons_self
    have hnext := ih (xs ++ [y]) (fun r hr => hys r (List.mem_cons_of_mem _ hr))
    rw [List.append_assoc, List.length_append, List.length_singleton] at hnext
    rw [List.length_cons, Contents.findFrom]
    unfold Contents.getDataVal
    rw [record_page hy.not_boolean]
    show (less y.dataval key >>= _) = _
    rw [less_eq (hkey _ hy)]
    show (if decide (y.dataval < key) = true then _ else _) = _
    by_cases hlt : y.dataval < key
    · rw [if_pos (decide_eq_true hlt), List.takeWhile_cons, if_pos (decide_eq_true hlt)]
      refine hnext.trans ?_
      rw [List.length_cons, Nat.add_assoc, Nat.add_comm 1]
    · rw [if_neg (fun h => hlt (of_decide_eq_true h)), List.takeWhile_cons,
        if_neg (fun h => hlt (of_decide_eq_true h))]
      rfl

/-- The slot in front of the first record that is not smaller. -/
theorem findSlotBefore_page {key : Value} (hkey : Compares L key) (rs : List (Record P))
    (hrs : ∀ r ∈ rs, Suits L r.dataval) :
    (page flag rs rest).findSlotBefore L key =
      .ok ((rs.takeWhile (fun r => r.dataval < key)).length - 1) := by
  have h := findFrom_page flag rest hkey [] rs hrs
  rw [List.length_nil, Nat.zero_add] at h
  exact h

theorem isFull_page {B : BlockSize} (rs : List (Record P)) :
    (page flag rs rest).isFull L B = true ↔ B.bytes ≤ 8 + (rs.length + 1) * L.slotSize := by
  unfold Contents.isFull slotPos
  have hcast : 8 + ((rs.length : ℤ) + 1) * L.slotSize =
      (8 + (rs.length + 1) * L.slotSize : ℕ) := by
    push_cast
    rfl
  rw [decide_eq_true_iff]
  show ((B.bytes : ℤ) ≤ 8 + ((rs.length : ℤ) + 1) * L.slotSize) ↔ _
  rw [hcast]
  exact Int.ofNat_le

end Lists

/-- The records that a block holds, and its flag. -/
structure Holds {P : Type} (B : BlockSize) (L : Layout) (c : Contents P) (flag : ℤ)
    (rs : List (Record P)) : Prop where
  form : ∃ rest, c = page flag rs rest
  room : c.slots.length = capacity B L
  suits : ∀ r ∈ rs, Suits L r.dataval

section Files

variable {P : Type} {B : BlockSize} {L : Layout} {f : IndexFile P} {blk : ℕ} {c : Contents P}
  {flag : ℤ} {rs : List (Record P)}

/-- A page that is not full has a slot for one more record. -/
theorem lt_capacity {n : ℕ} (h : 8 + (n + 1) * L.slotSize < B.bytes) : n < capacity B L :=
  (Nat.le_div_iff_mul_le L.slot_pos).mpr (show (n + 1) * L.slotSize ≤ B.bytes - 8 by omega)

theorem Holds.isFull_iff (h : Holds B L c flag rs) :
    c.isFull L B = true ↔ B.bytes ≤ 8 + (rs.length + 1) * L.slotSize := by
  obtain ⟨rest, rfl⟩ := h.form
  exact isFull_page rs

theorem contents_eq (hpin : blk ∈ f.pins) (h : f.blocks[blk]? = some c) :
    f.contents blk = .ok c := by
  unfold IndexFile.contents
  rw [if_pos hpin, h]

theorem contents_set_append {blocks : List (Contents P)} (tail : List (Contents P))
    {pins : List ℕ} (hpin : blk ∈ pins) (h : blk < blocks.length) (c : Contents P) :
    IndexFile.contents ⟨blocks.set blk c ++ tail, pins⟩ blk = .ok c := by
  apply contents_eq hpin
  exact set_append_self tail c h

theorem put_set_append {blocks tail : List (Contents P)} (pins : List ℕ)
    (h : blk < blocks.length) (c c' : Contents P) :
    IndexFile.put ⟨blocks.set blk c ++ tail, pins⟩ blk c' = ⟨blocks.set blk c' ++ tail, pins⟩ := by
  unfold IndexFile.put
  dsimp only
  rw [List.set_append_left _ _ (by rw [List.length_set]; exact h), List.set_set]

theorem setFlag_set_append {blocks tail : List (Contents P)} {pins : List ℕ}
    (hpin : blk ∈ pins) (h : blk < blocks.length) (flag flag' : ℤ) (rs : List (Record P))
    (rest : List (Option (Record P))) :
    IndexFile.setFlag ⟨blocks.set blk (page flag rs rest) ++ tail, pins⟩ blk flag' =
      .ok ⟨blocks.set blk (page flag' rs rest) ++ tail, pins⟩ := by
  unfold IndexFile.setFlag
  rw [contents_set_append tail hpin h, ok_bind, put_set_append pins h]
  rfl

variable [Inhabited P]

/-- The slots of a new block. -/
def fresh (B : BlockSize) (L : Layout) : List (Option (Record P)) :=
  List.replicate (capacity B L) (some (Contents.defaultRecord L))

theorem fresh_length : (fresh B L : List (Option (Record P))).length = capacity B L :=
  List.length_replicate

theorem format_zero (B : BlockSize) (L : Layout) (flag : ℤ) :
    (Contents.zero L B : Contents P).format L flag = page flag [] (fresh B L) := by
  unfold Contents.format Contents.zero page fresh
  rw [List.map_replicate]
  rfl

theorem appendNew_eq (f : IndexFile P) (flag : ℤ) :
    f.appendNew L B flag = .ok (f.blocks.length,
      ⟨f.blocks ++ [page flag [] (fresh B L)], f.blocks.length :: f.pins⟩) := by
  have hget : ((f.append L B).pin f.blocks.length).contents f.blocks.length =
      .ok (Contents.zero L B) :=
    contents_eq List.mem_cons_self (getElem?_middle f.blocks [] _)
  unfold IndexFile.appendNew
  dsimp only
  rw [hget, ok_bind, format_zero]
  unfold IndexFile.put IndexFile.pin IndexFile.append
  dsimp only
  rw [set_middle]
  rfl

/-- The transfer to a new block, the last one. -/
theorem transferRecs_eq {xs ys : List (Record P)} {rest : List (Option (Record P))}
    {blocks : List (Contents P)} (pins : List ℕ) (hpin : blk ∈ pins)
    (hnew : blocks.length ∈ pins) (h : blocks[blk]? = some (page flag (xs ++ ys) rest))
    (hys : ∀ r ∈ ys, Suits L r.dataval) (hroom : ys.length ≤ capacity B L) (flag' : ℤ) :
    IndexFile.transferRecs L ⟨blocks ++ [page flag' [] (fresh B L)], pins⟩ blk xs.length
      blocks.length =
        .ok ⟨blocks.set blk (page flag xs (List.replicate ys.length ys.getLast? ++ rest)) ++
          [page flag' ys ((fresh B L).drop ys.length)], pins⟩ := by
  have hblk : blk < blocks.length := (List.getElem?_eq_some_iff.mp h).1
  have hsource : (blocks ++ [page flag' [] (fresh B L)])[blk]? =
      some (page flag (xs ++ ys) rest) := by
    rw [List.getElem?_append_left hblk]
    exact h
  have htransfer := transferRecs_page flag flag' rest (fresh B L) xs ys hys
    (by rw [fresh_length]; exact hroom)
  unfold IndexFile.transferRecs
  rw [contents_eq hpin hsource, ok_bind, contents_eq hnew (getElem?_middle blocks [] _), ok_bind,
    htransfer, ok_bind]
  unfold IndexFile.put
  dsimp only
  have hlen : blocks.length = (blocks.set blk
      (page flag xs (List.replicate ys.length ys.getLast? ++ rest))).length := List.length_set.symm
  rw [List.set_append_left _ _ hblk, hlen, set_middle]
  rfl

/-- A split moves the records from a position on to a new block, which stays pinned. -/
theorem split_eq {xs ys : List (Record P)} {rest : List (Option (Record P))}
    (hpin : blk ∈ f.pins) (h : f.blocks[blk]? = some (page flag (xs ++ ys) rest))
    (hys : ∀ r ∈ ys, Suits L r.dataval) (hroom : ys.length ≤ capacity B L) (flag' : ℤ) :
    f.split L B blk xs.length flag' = .ok (f.blocks.length,
      ⟨f.blocks.set blk (page flag xs (List.replicate ys.length ys.getLast? ++ rest)) ++
        [page flag' ys ((fresh B L).drop ys.length)], f.blocks.length :: f.pins⟩) := by
  have htransfer := transferRecs_eq (B := B) (f.blocks.length :: f.blocks.length :: f.pins)
    (List.mem_cons_of_mem _ (List.mem_cons_of_mem _ hpin)) List.mem_cons_self h hys hroom flag'
  have hlen : (f.blocks.set blk
      (page flag xs (List.replicate ys.length ys.getLast? ++ rest))).length = f.blocks.length :=
    List.length_set
  unfold IndexFile.split
  rw [appendNew_eq, ok_bind]
  dsimp only [IndexFile.pin]
  rw [htransfer, ok_bind]
  unfold IndexFile.setFlag
  rw [contents_eq List.mem_cons_self (by rw [← hlen]; exact getElem?_middle _ [] _), ok_bind]
  have herase : (f.blocks.length :: f.blocks.length :: f.pins).erase f.blocks.length =
      f.blocks.length :: f.pins := List.erase_cons_head _ _
  unfold IndexFile.put IndexFile.unpin
  dsimp only
  rw [← hlen, set_middle, hlen, pure_bind, herase]
  rfl

/-- What is left in the slots behind the records is known only to be a record that was there
before. -/
theorem exists_split (xs ys : List (Record P)) {rest : List (Option (Record P))}
    (hpin : blk ∈ f.pins) (h : f.blocks[blk]? = some (page flag (xs ++ ys) rest))
    (hys : ∀ r ∈ ys, Suits L r.dataval) (hroom : (xs ++ ys).length + rest.length = capacity B L)
    (flag' : ℤ) :
    ∃ stale stale', f.split L B blk xs.length flag' = .ok (f.blocks.length,
        ⟨f.blocks.set blk (page flag xs stale) ++ [page flag' ys stale'],
          f.blocks.length :: f.pins⟩) ∧
      xs.length + stale.length = capacity B L ∧ ys.length + stale'.length = capacity B L ∧
      (∀ o ∈ stale, o ∈ rest ∨ ∃ r ∈ ys, o = some r) ∧
      ∀ o ∈ stale', o = some (Contents.defaultRecord L) := by
  rw [List.length_append] at hroom
  refine ⟨_, _, split_eq hpin h hys (by omega) flag', ?_, ?_, ?_, ?_⟩
  · rw [List.length_append, List.length_replicate]
    omega
  · rw [List.length_drop, fresh_length]
    omega
  · intro o ho
    cases List.mem_append.mp ho with
    | inl hmem =>
      obtain ⟨hne, rfl⟩ := List.mem_replicate.mp hmem
      have hnil : ys ≠ [] := fun h => hne (h ▸ rfl)
      exact Or.inr ⟨ys.getLast hnil, List.getLast_mem hnil, List.getLast?_eq_some_getLast hnil⟩
    | inr hmem => exact Or.inl hmem
  · intro o ho
    exact List.eq_of_mem_replicate ((List.drop_sublist _ _).subset ho)

end Files

end SampleDB.PageLists
