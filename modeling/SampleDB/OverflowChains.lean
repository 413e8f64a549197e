import SampleDB.LeafInsertion

/-!
A leaf with its overflow blocks. The records of a key are the ones of the leaf with this key and,
if it is the first key of the leaf, those of all overflow blocks; `next` goes through them in this
order, and `remove` takes away the first one with the record identifier.
-/
namespace SampleDB.OverflowChains

open Words Pages Blocks Schemas Rollback TableScans KeyOrder BTreePages BTreeLeaves PageLists
open SortedLists LeafInsertion

/-- The overflow blocks from a flag on, and their records, which all have the same key. -/
inductive Chain (B : BlockSize) (L : Layout) (blocks : List (Contents Rid)) (v : Value) :
    ℤ → List ℕ → List (Record Rid) → Prop
  | nil : Chain B L blocks v (-1) [] []
  | cons (b : ℕ) (flag : ℤ) (rs : List (Record Rid)) (rest : List (Option (Record Rid)))
      (bs : List ℕ) (crs : List (Record Rid)) : blocks[b]? = some (page flag rs rest) →
      Holds B L (page flag rs rest) flag rs → rs ≠ [] → (∀ r ∈ rs, r.dataval = v) →
      Chain B L blocks v flag bs crs → Chain B L blocks v b (b :: bs) (rs ++ crs)

theorem page_injective {P : Type} {flag flag' : ℤ} {rs rs' : List (Record P)}
    {rest rest' : List (Option (Record P))} (h : page flag rs rest = page flag' rs' rest') :
    flag = flag' ∧ rs = rs' ∧ rest = rest' := by
  have hflag : flag = flag' := congrArg Contents.flag h
  have hnum : (rs.length : ℤ) = rs'.length := congrArg Contents.numRecs h
  have hslots : rs.map some ++ rest = rs'.map some ++ rest' := congrArg Contents.slots h
  have hlen : (rs.map some).length = (rs'.map some).length := by
    rw [List.length_map, List.length_map]
    omega
  obtain ⟨hmap, hrest⟩ := List.append_inj hslots hlen
  exact ⟨hflag, List.map_injective_iff.mpr (Option.some_injective _) hmap, hrest⟩

section Chains

variable {B : BlockSize} {L : Layout} {blocks blocks' : List (Contents Rid)} {v : Value} {flag : ℤ}
  {bs : List ℕ} {crs : List (Record Rid)}

theorem Chain.keys (h : Chain B L blocks v flag bs crs) : ∀ r ∈ crs, r.dataval = v := by
  induction h with
  | nil => exact fun r hr => absurd hr List.not_mem_nil
  | cons b flag rs rest bs crs _ _ _ hall _ ih =>
    intro r hr
    cases List.mem_append.mp hr with
    | inl hmem => exact hall r hmem
    | inr hmem => exact ih r hmem

theorem Chain.negative (h : Chain B L blocks v flag bs crs) (hflag : flag < 0) :
    flag = -1 ∧ bs = [] ∧ crs = [] := by
  cases h with
  | nil => exact ⟨rfl, rfl, rfl⟩
  | cons b => exact absurd (Int.natCast_nonneg b) (not_le.mpr hflag)

theorem Chain.lt_length (h : Chain B L blocks v flag bs crs) : ∀ b ∈ bs, b < blocks.length := by
  induction h with
  | nil => exact fun b hb => absurd hb List.not_mem_nil
  | cons b flag rs rest bs crs hget _ _ _ _ ih =>
    intro b' hb
    cases hb with
    | head => exact (List.getElem?_eq_some_iff.mp hget).1
    | tail _ hmem => exact ih b' hmem

/-- A chain depends on its own blocks only. -/
theorem Chain.congr (h : Chain B L blocks v flag bs crs)
    (heq : ∀ b ∈ bs, blocks'[b]? = blocks[b]?) : Chain B L blocks' v flag bs crs := by
  induction h with
  | nil => exact .nil
  | cons b flag rs rest bs crs hget hholds hne hall _ ih =>
    refine .cons b flag rs rest bs crs ?_ hholds hne hall
      (ih fun b' hb => heq b' (List.mem_cons_of_mem b hb))
    rw [heq b List.mem_cons_self]
    exact hget

/-- Without records no key matters. -/
theorem Chain.change_key {v' : Value} (h : Chain B L blocks v flag bs crs)
    (hv : 0 ≤ flag → v' = v) : Chain B L blocks v' flag bs crs := by
  cases lt_or_ge flag 0 with
  | inl hlt =>
    obtain ⟨rfl, rfl, rfl⟩ := h.negative hlt
    exact .nil
  | inr hge =>
    rw [hv hge]
    exact h

/-- One of the blocks gets other records of the key. -/
theorem Chain.set (h : Chain B L blocks v flag bs crs) (hnodup : bs.Nodup) {x : ℕ} (hx : x ∈ bs)
    {flag' : ℤ} {rs : List (Record Rid)} {rest : List (Option (Record Rid))}
    (hget : blocks[x]? = some (page flag' rs rest)) :
    ∃ front back, crs = front ++ rs ++ back ∧ (∀ r ∈ rs, r.dataval = v) ∧
      Holds B L (page flag' rs rest) flag' rs ∧ ∀ rs' rest', Holds B L (page flag' rs' rest') flag' rs' → rs' ≠ [] →
        (∀ r ∈ rs', r.dataval = v) →
        Chain B L (blocks.set x (page flag' rs' rest')) v flag bs (front ++ rs' ++ back) := by
  induction h with
  | nil => cases hx
  | cons b flag₁ rs₁ rest₁ bs crs hget₁ hholds hne hall hchain ih =>
    obtain ⟨hb, hnodup⟩ := List.nodup_cons.mp hnodup
    by_cases hsame : x = b
    · subst hsame
      obtain ⟨rfl, rfl, rfl⟩ := page_injective (Option.some.inj (hget.symm.trans hget₁))
      refine ⟨[], crs, rfl, hall, hholds, fun rs' rest' hholds' hne' hall' => ?_⟩
      refine .cons x flag' rs' rest' bs crs
        (List.getElem?_set_self (List.getElem?_eq_some_iff.mp hget).1) hholds' hne' hall'
        (hchain.congr fun b' hb' => List.getElem?_set_ne ?_)
      rintro rfl
      exact hb hb'
    · have hmem : x ∈ bs := (List.mem_cons.mp hx).resolve_left hsame
      obtain ⟨front, back, rfl, hrs, hholds₁, hset⟩ := ih hnodup hmem
      refine ⟨rs₁ ++ front, back, by simp only [List.append_assoc], hrs,
        hholds₁, fun rs' rest' hholds' hne' hall' => ?_⟩
      have hnext := Chain.cons b flag₁ rs₁ rest₁ bs _
        ((List.getElem?_set_ne hsame).trans hget₁) hholds hne hall
        (hset rs' rest' hholds' hne' hall')
      simp only [List.append_assoc] at hnext ⊢
      exact hnext

end Chains

/-- The records with a key. -/
def ofKey (key : Value) (rs : List (Record Rid)) : List (Record Rid) :=
  rs.filter (fun r => r.dataval = key)

section Keys

variable {key : Value} {rs rs' : List (Record Rid)} {r : Record Rid}

theorem mem_ofKey : r ∈ ofKey key rs ↔ r ∈ rs ∧ r.dataval = key := by
  unfold ofKey
  rw [List.mem_filter, decide_eq_true_iff]

theorem ofKey_append : ofKey key (rs ++ rs') = ofKey key rs ++ ofKey key rs' :=
  List.filter_append _ _

theorem ofKey_cons_eq (h : r.dataval = key) : ofKey key (r :: rs) = r :: ofKey key rs :=
  List.filter_cons_of_pos (decide_eq_true h)

theorem ofKey_eq_nil : ofKey key rs = [] ↔ ∀ r ∈ rs, r.dataval ≠ key := by
  unfold ofKey
  simp only [List.filter_eq_nil_iff, decide_eq_true_iff, ne_eq]

end Keys

/-!
Where a leaf stands while it is read: `xs` are the records of its page up to the current slot and
`ys` the ones behind it.
-/

/-- The page goes on with records that are not smaller than the key, and then with a chain. -/
structure Standing (B : BlockSize) (L : Layout) (leaf : BTreeLeaf) (flag : ℤ)
    (xs ys : List (Record Rid)) (rest : List (Option (Record Rid))) (v : Value) (bs : List ℕ)
    (crs : List (Record Rid)) : Prop where
  pinned : leaf.contents ∈ leaf.file.pins
  onPage : leaf.file.blocks[leaf.contents]? = some (page flag (xs ++ ys) rest)
  slot : leaf.currentSlot = xs.length - 1
  suits : ∀ r ∈ xs ++ ys, Suits L r.dataval
  sorted : Sorted Record.dataval ys
  le : ∀ r ∈ ys, leaf.key ≤ r.dataval
  first : ∃ w, (page flag (xs ++ ys) rest).getDataVal L 0 = .ok w ∧ Suits L w ∧
    (0 ≤ flag → w = v)
  chain : Chain B L leaf.file.blocks v flag bs crs

/-- The records with the key of the leaf that are still to come, in these blocks. -/
def Ahead (B : BlockSize) (L : Layout) (own : List ℕ) (leaf : BTreeLeaf)
    (todo : List (Record Rid)) : Prop :=
  ∃ flag xs ys rest v bs crs, Standing B L leaf flag xs ys rest v bs crs ∧
    leaf.contents ∈ own ∧ bs ⊆ own ∧ todo = ofKey leaf.key (ys ++ crs)

/-- The leaf stands on a record. -/
def StandsOn (L : Layout) (leaf : BTreeLeaf) (r : Record Rid) : Prop :=
  ∃ flag xs ys rest, leaf.contents ∈ leaf.file.pins ∧
    leaf.file.blocks[leaf.contents]? = some (page flag (xs ++ r :: ys) rest) ∧
    leaf.currentSlot = xs.length ∧ ∀ a ∈ xs ++ r :: ys, Suits L a.dataval

section Cursors

variable {B : BlockSize} {L : Layout} {leaf : BTreeLeaf} {flag : ℤ} {xs ys : List (Record Rid)}
  {rest : List (Option (Record Rid))} {v : Value} {bs own : List ℕ}
  {crs todo : List (Record Rid)} {r : Record Rid}

theorem StandsOn.dataRid (h : StandsOn L leaf r) : leaf.dataRid L = .ok r.data := by
  obtain ⟨flag, xs, ys, rest, hpin, hget, hslot, hsuits⟩ := h
  have hr : Suits L r.dataval := hsuits r (List.mem_append_right _ List.mem_cons_self)
  unfold BTreeLeaf.dataRid BTreeLeaf.page getDataRid
  rw [contents_eq hpin hget, ok_bind, hslot, record_page hr.not_boolean]
  rfl

/-- The leaf one slot further, on the same page. -/
theorem Standing.atKey (h : Standing B L leaf flag xs ys rest v bs crs)
    (hkey : Compares L leaf.key) :
    BTreeLeaf.atKey L { leaf with currentSlot := leaf.currentSlot + 1 } =
      .ok (decide (∃ r, ys.head? = some r ∧ r.dataval = leaf.key)) := by
  have hslot : leaf.currentSlot + 1 = xs.length := by
    rw [h.slot]
    omega
  unfold BTreeLeaf.atKey BTreeLeaf.page
  dsimp only
  rw [contents_eq h.pinned h.onPage, ok_bind, hslot]
  cases ys with
  | nil =>
    have hnum : (xs.length : ℤ) ≥ (page flag (xs ++ []) rest).numRecs := by
      rw [List.append_nil]
      exact le_refl _
    rw [if_pos hnum, decide_eq_false]
    · rfl
    · rintro ⟨r, hr, -⟩
      cases hr
  | cons y ys =>
    have hnum : ¬ (xs.length : ℤ) ≥ (page flag (xs ++ y :: ys) rest).numRecs := by
      show ¬ (xs.length : ℤ) ≥ ((xs ++ y :: ys).length : ℕ)
      rw [List.length_append, List.length_cons]
      omega
    have hy : Suits L y.dataval := h.suits y (List.mem_append_right _ List.mem_cons_self)
    rw [if_neg hnum, getDataVal_page _ _ _ _ hy, ok_bind, equal_eq (hkey _ hy)]
    simp only [List.head?_cons, Option.some.injEq, exists_eq_left']

/-- No record behind the current one has the key, unless the next one has it. -/
theorem Standing.ofKey_nil (h : Standing B L leaf flag xs ys rest v bs crs)
    (hnot : ¬ ∃ r, ys.head? = some r ∧ r.dataval = leaf.key) : ofKey leaf.key ys = [] := by
  cases ys with
  | nil => rfl
  | cons y ys =>
    have hne : y.dataval ≠ leaf.key := fun heq => hnot ⟨y, rfl, heq⟩
    have hlt : leaf.key < y.dataval := lt_of_le_of_ne (h.le y List.mem_cons_self) (Ne.symm hne)
    rw [ofKey_eq_nil]
    intro a ha
    cases ha with
    | head => exact hne
    | tail _ hmem => exact (hlt.trans_le ((List.pairwise_cons.mp h.sorted).1 a hmem)).ne'

/-- The next record of the key is on the page. -/
theorem Standing.next_here (h : Standing B L leaf flag xs (r :: ys) rest v bs crs)
    (hkey : Compares L leaf.key) (hr : r.dataval = leaf.key) :
    leaf.next L = .ok (true, { leaf with currentSlot := leaf.currentSlot + 1 }) := by
  unfold BTreeLeaf.next
  dsimp only
  rw [h.atKey hkey, ok_bind, decide_eq_true ⟨r, rfl, hr⟩]
  rfl

theorem Standing.next_over (h : Standing B L leaf flag xs ys rest v bs crs)
    (hkey : Compares L leaf.key) (hnot : ¬ ∃ r, ys.head? = some r ∧ r.dataval = leaf.key)
    {w : Value} (hw : (page flag (xs ++ ys) rest).getDataVal L 0 = .ok w) (hsuits : Suits L w) :
    leaf.next L = .ok (if leaf.key = w ∧ 0 ≤ flag then
      (true, { leaf with
        file := (leaf.file.unpin leaf.contents).pin flag.toNat, contents := flag.toNat,
        currentSlot := 0 })
      else (false, { leaf with currentSlot := leaf.currentSlot + 1 })) := by
  unfold BTreeLeaf.next
  dsimp only
  rw [h.atKey hkey, ok_bind, decide_eq_false hnot, if_neg Bool.false_ne_true]
  unfold BTreeLeaf.tryOverflow BTreeLeaf.page
  dsimp only
  rw [contents_eq h.pinned h.onPage, ok_bind, hw, ok_bind, equal_eq (hkey w hsuits).symm, ok_bind]
  show (if _ then _ else _) = _
  by_cases heq : leaf.key = w ∧ 0 ≤ flag
  · rw [if_pos heq, if_neg]
    · rfl
    · rw [heq.1]
      simp [Contents.getFlag, page, heq.2]
  · rw [if_neg heq, if_pos]
    · rfl
    · rw [Bool.or_eq_true]
      by_cases hk : leaf.key = w
      · refine Or.inr (decide_eq_true (not_le.mp fun hle => heq ⟨hk, hle⟩))
      · exact Or.inl (by rw [decide_eq_false hk]; rfl)

/-- The last record of the key has been read. -/
theorem Ahead.next_nil (h : Ahead B L own leaf []) (hkey : Compares L leaf.key) :
    leaf.next L = .ok (false, { leaf with currentSlot := leaf.currentSlot + 1 }) := by
  obtain ⟨flag, xs, ys, rest, v, bs, crs, hstands, -, -, hnil⟩ := h
  rw [ofKey_append] at hnil
  obtain ⟨hys, hcrs⟩ := List.append_eq_nil_iff.mp hnil.symm
  have hnot : ¬ ∃ r, ys.head? = some r ∧ r.dataval = leaf.key := by
    rintro ⟨r, hr, heq⟩
    exact ofKey_eq_nil.mp hys r (List.mem_of_head? hr) heq
  obtain ⟨w, hw, hsuits, hfirst⟩ := hstands.first
  rw [hstands.next_over hkey hnot hw hsuits, if_neg]
  rintro ⟨rfl, hflag⟩
  -- the blocks of the chain are not empty
  have hv := hfirst hflag
  cases hstands.chain with
  | nil => exact absurd hflag (by decide)
  | cons b flag' rs rest' bs' crs' _ _ hne hall _ =>
    obtain ⟨a, ha⟩ := List.exists_mem_of_ne_nil rs hne
    exact ofKey_eq_nil.mp hcrs a (List.mem_append_left _ ha) ((hall a ha).trans hv.symm)

/-- The next record of the key is on the page or in the overflow block behind it. -/
theorem Ahead.next_cons (h : Ahead B L own leaf (r :: todo)) (hkey : Compares L leaf.key) :
    ∃ leaf', leaf.next L = .ok (true, leaf') ∧ Ahead B L own leaf' todo ∧ StandsOn L leaf' r ∧
      leaf'.contents ∈ own ∧ r.dataval = leaf.key ∧ leaf'.key = leaf.key ∧
      leaf'.file.blocks = leaf.file.blocks := by
  obtain ⟨flag, xs, ys, rest, v, bs, crs, hstands, hown, hsub, htodo⟩ := h
  by_cases hhere : ∃ r, ys.head? = some r ∧ r.dataval = leaf.key
  · obtain ⟨y, hy, heq⟩ := hhere
    obtain ⟨ys, rfl⟩ : ∃ ys', ys = y :: ys' := by
      cases ys with
      | nil => cases hy
      | cons y' ys => exact ⟨ys, by rw [Option.some.inj hy]⟩
    rw [List.cons_append, ofKey_cons_eq heq] at htodo
    obtain ⟨rfl, rfl⟩ := List.cons.inj htodo
    have hslot : leaf.currentSlot + 1 = xs.length := by
      rw [hstands.slot]
      omega
    refine ⟨_, hstands.next_here hkey heq, ⟨flag, xs ++ [r], ys, rest, v, bs, crs, ?_, hown, hsub,
      rfl⟩, ⟨flag, xs, ys, rest, hstands.pinned, hstands.onPage, hslot, hstands.suits⟩, hown, heq,
      rfl, rfl⟩
    have hlist : xs ++ [r] ++ ys = xs ++ r :: ys := by
      rw [List.append_assoc]
      rfl
    refine ⟨hstands.pinned, hlist ▸ hstands.onPage, ?_, hlist ▸ hstands.suits,
      (List.pairwise_cons.mp hstands.sorted).2,
      fun a ha => hstands.le a (List.mem_cons_of_mem _ ha), hlist ▸ hstands.first, hstands.chain⟩
    show leaf.currentSlot + 1 = _
    rw [hslot, List.length_append, List.length_singleton]
    omega
  · rw [ofKey_append, hstands.ofKey_nil hhere, List.nil_append] at htodo
    have hmem : r ∈ ofKey leaf.key crs := htodo ▸ List.mem_cons_self
    obtain ⟨hrcrs, hrkey⟩ := mem_ofKey.mp hmem
    obtain ⟨w, hw, hsuits, hfirst⟩ := hstands.first
    cases hstands.chain with
    | nil => cases htodo
    | cons b flag' rs rest' bs' crs' hget hholds hne hall hchain =>
      have hv : v = leaf.key := (hstands.chain.keys r hrcrs).symm.trans hrkey
      obtain ⟨o, os, rfl⟩ := List.exists_cons_of_ne_nil hne
      have ho : o.dataval = leaf.key := (hall o List.mem_cons_self).trans hv
      rw [List.cons_append, ofKey_cons_eq ho] at htodo
      obtain ⟨rfl, rfl⟩ := List.cons.inj htodo
      have hw' : w = v := hfirst (Int.natCast_nonneg b)
      refine ⟨{ leaf with
          file := (leaf.file.unpin leaf.contents).pin b, contents := b, currentSlot := 0 }, ?_,
        ⟨flag', [r], os, rest', v, bs', crs', ?_, hsub List.mem_cons_self,
          fun x hx => hsub (List.mem_cons_of_mem b hx), rfl⟩,
        ⟨flag', [], os, rest', List.mem_cons_self, hget, rfl, hholds.suits⟩,
        hsub List.mem_cons_self, ho, rfl, rfl⟩
      · rw [hstands.next_over hkey hhere hw hsuits,
          if_pos ⟨(hw'.trans hv).symm, Int.natCast_nonneg b⟩]
        rfl
      · have hos : ∀ a ∈ os, a.dataval = leaf.key :=
          fun a ha => (hall a (List.mem_cons_of_mem _ ha)).trans hv
        refine ⟨List.mem_cons_self, hget, rfl, hholds.suits, ?_, ?_, ⟨r.dataval,
          getDataVal_head (hholds.suits r List.mem_cons_self),
          hholds.suits r List.mem_cons_self, fun _ => hall r List.mem_cons_self⟩, hchain⟩
        · refine List.pairwise_of_forall_mem_list fun a ha a' ha' => ?_
          rw [hos a ha, hos a' ha']
        · exact fun a ha => (hos a ha).ge

end Cursors

/-- The loop of `remove` up to the record that it takes away. -/
def find (L : Layout) (datarid : Rid) : ℕ → BTreeLeaf → Result (Option BTreeLeaf)
  | 0, _ => .error .outside
  | n + 1, leaf => do
      let (found, leaf) ← leaf.next L
      if found then
        if (← leaf.dataRid L) = datarid then return some leaf else find L datarid n leaf
      else return none

section Removals

variable {B : BlockSize} {L : Layout} {leaf : BTreeLeaf} {own : List ℕ}
  {todo : List (Record Rid)} {r : Record Rid} {n : ℕ}

/-- The page loses the record that the leaf stands on. -/
theorem StandsOn.remove (h : StandsOn L leaf r) : ∃ flag xs ys rest last,
    leaf.file.blocks[leaf.contents]? = some (page flag (xs ++ r :: ys) rest) ∧
    leaf.page = .ok (page flag (xs ++ r :: ys) rest) ∧ leaf.currentSlot = xs.length ∧
    (page flag (xs ++ r :: ys) rest).remove L leaf.currentSlot =
      .ok (page flag (xs ++ ys) (some last :: rest)) ∧ Suits L last.dataval := by
  obtain ⟨flag, xs, ys, rest, hpin, hget, hslot, hsuits⟩ := h
  have hys : ∀ a ∈ ys, Suits L a.dataval := fun a ha =>
    hsuits a (List.mem_append_right _ (List.mem_cons_of_mem _ ha))
  have hremove := remove_page flag rest xs ys r hys
  rw [List.getLast?_eq_some_getLast (List.cons_ne_nil r ys)] at hremove
  refine ⟨flag, xs, ys, rest, _, hget, contents_eq hpin hget, hslot, ?_,
    hsuits _ (List.mem_append_right _ (List.getLast_mem (List.cons_ne_nil r ys)))⟩
  rw [hslot]
  exact hremove

/-- The first record ahead with the record identifier is taken away, if there is one. -/
theorem Ahead.remove (h : Ahead B L own leaf todo) (hkey : Compares L leaf.key) (datarid : Rid)
    (hn : todo.length < n) : ∃ leaf', leaf.remove L datarid n = .ok leaf' ∧
      (datarid ∉ todo.map Record.data ∧ leaf'.file.blocks = leaf.file.blocks ∨
        ∃ at' r c c', find L datarid n leaf = .ok (some at') ∧ r ∈ todo ∧ r.data = datarid ∧
          StandsOn L at' r ∧ at'.contents ∈ own ∧ at'.file.blocks = leaf.file.blocks ∧
          at'.page = .ok c ∧ c.remove L at'.currentSlot = .ok c' ∧
          leaf'.file.blocks = leaf.file.blocks.set at'.contents c') := by
  induction todo generalizing n leaf with
  | nil =>
    obtain ⟨n, rfl⟩ : ∃ m, n = m + 1 := ⟨n - 1, by omega⟩
    refine ⟨{ leaf with currentSlot := leaf.currentSlot + 1 }, ?_, Or.inl ⟨List.not_mem_nil, rfl⟩⟩
    rw [BTreeLeaf.remove, h.next_nil hkey]
    rfl
  | cons r todo ih =>
    obtain ⟨n, rfl⟩ : ∃ m, n = m + 1 := ⟨n - 1, by omega⟩
    obtain ⟨leaf₁, hnext, hahead, hstands, hown, -, hkey₁, hblocks⟩ := h.next_cons hkey
    by_cases heq : r.data = datarid
    · obtain ⟨flag, xs, ys, rest, last, hget, hpage, -, hremove, -⟩ := hstands.remove
      have hset : (leaf₁.file.put leaf₁.contents (page flag (xs ++ ys) (some last :: rest))).blocks =
          leaf.file.blocks.set leaf₁.contents (page flag (xs ++ ys) (some last :: rest)) := by
        rw [← hblocks]
        rfl
      refine ⟨{ leaf₁ with
        file := leaf₁.file.put leaf₁.contents (page flag (xs ++ ys) (some last :: rest)) }, ?_,
        Or.inr ⟨leaf₁, r, _, _, ?_, List.mem_cons_self, heq, hstands, hown, hblocks, hpage, hremove,
          hset⟩⟩
      · rw [BTreeLeaf.remove, hnext, ok_bind]
        dsimp only
        rw [if_pos rfl, hstands.dataRid, ok_bind, if_pos heq, hpage, ok_bind, hremove]
        rfl
      · rw [find, hnext, ok_bind]
        dsimp only
        rw [if_pos rfl, hstands.dataRid, ok_bind, if_pos heq]
        rfl
    · obtain ⟨leaf', hrun, hcases⟩ := ih hahead (hkey₁ ▸ hkey) (Nat.lt_of_succ_lt_succ hn)
      refine ⟨leaf', ?_, ?_⟩
      · rw [BTreeLeaf.remove, hnext, ok_bind]
        dsimp only
        rw [if_pos rfl, hstands.dataRid, ok_bind, if_neg heq, hrun]
      · refine hcases.imp ?_ ?_
        · rintro ⟨hnot, hsame⟩
          refine ⟨?_, hsame.trans hblocks⟩
          rw [List.map_cons, List.mem_cons, not_or]
          exact ⟨Ne.symm heq, hnot⟩
        · rintro ⟨at', r', c, c', hfind, hmem, hr', hstands', hown', hsame, hpage, hremove, hset⟩
          refine ⟨at', r', c, c', ?_, List.mem_cons_of_mem r hmem, hr', hstands', hown',
            hsame.trans hblocks, hpage, hremove, by rw [hset, hblocks]⟩
          rw [find, hnext, ok_bind]
          dsimp only
          rw [if_pos rfl, hstands.dataRid, ok_bind, if_neg heq, hfind]

end Removals

/-- The records of a leaf and those of its overflow blocks, which have the key `v`. The first slot
can be read also when there are no records. -/
structure LeafHolds (B : BlockSize) (L : Layout) (blocks : List (Contents Rid)) (blk : ℕ) (flag : ℤ)
    (rs : List (Record Rid)) (rest : List (Option (Record Rid))) (v : Value) (bs : List ℕ)
    (crs : List (Record Rid)) : Prop where
  onPage : blocks[blk]? = some (page flag rs rest)
  leaf : IsLeaf B L (page flag rs rest) flag rs
  readable : rs = [] → ∃ z rest', rest = some z :: rest' ∧ Suits L z.dataval
  first : 0 ≤ flag → rs.head?.map Record.dataval = some v
  chain : Chain B L blocks v flag bs crs

/-- After the removal of the record that the leaf stands on, the page still begins with the key that
it began with, or it is the page of the leaf itself and has no overflow blocks. -/
def KeepsFirst (L : Layout) (blk : ℕ) (leaf : BTreeLeaf) : Prop :=
  ∀ c c', leaf.page = .ok c → c.remove L leaf.currentSlot = .ok c' →
    (leaf.contents = blk ∧ c.getFlag < 0) ∨
      (0 < c'.numRecs ∧ c'.getDataVal L 0 = c.getDataVal L 0)

section Leaves

variable {B : BlockSize} {L : Layout} {blocks blocks' : List (Contents Rid)} {blk : ℕ} {flag : ℤ}
  {rs : List (Record Rid)} {rest : List (Option (Record Rid))} {v key : Value} {bs : List ℕ}
  {crs : List (Record Rid)} {r : Record Rid}

theorem LeafHolds.congr (h : LeafHolds B L blocks blk flag rs rest v bs crs)
    (heq : ∀ b ∈ blk :: bs, blocks'[b]? = blocks[b]?) :
    LeafHolds B L blocks' blk flag rs rest v bs crs where
  onPage := (heq blk List.mem_cons_self).trans h.onPage
  leaf := h.leaf
  readable := h.readable
  first := h.first
  chain := h.chain.congr fun b hb => heq b (List.mem_cons_of_mem blk hb)

/-- What the first slot holds. -/
theorem LeafHolds.first_slot (h : LeafHolds B L blocks blk flag rs rest v bs crs) :
    ∃ w, (page flag rs rest).getDataVal L 0 = .ok w ∧ Suits L w ∧ (0 ≤ flag → w = v) := by
  cases rs with
  | nil =>
    obtain ⟨z, rest', rfl, hz⟩ := h.readable rfl
    refine ⟨z.dataval, ?_, hz, fun hflag => ?_⟩
    · unfold Contents.getDataVal
      rw [show (0 : ℤ) = (0 : ℕ) from rfl, record_eq hz.not_boolean (c := page flag [] _) rfl]
      rfl
    · cases h.first hflag
  | cons r rs =>
    have hr := h.leaf.suits r List.mem_cons_self
    exact ⟨r.dataval, getDataVal_head hr, hr, fun hflag => Option.some.inj (h.first hflag)⟩

/-- A leaf that is opened for a key has the records of the key ahead of it. -/
theorem LeafHolds.opened {f : IndexFile Rid} (h : LeafHolds B L f.blocks blk flag rs rest v bs crs)
    (hkey : Compares L key) : ∃ leaf, BTreeLeaf.new L f blk key = .ok leaf ∧ leaf.key = key ∧
      leaf.contents = blk ∧ leaf.file.blocks = f.blocks ∧
      Ahead B L (blk :: bs) leaf (ofKey key (rs ++ crs)) := by
  have hsplit := before_append_behind Record.dataval key rs
  have hpin : blk ∈ (f.pin blk).pins := List.mem_cons_self
  refine ⟨⟨f.pin blk, blk, (before Record.dataval key rs).length - 1, key⟩, ?_, rfl, rfl, rfl,
    flag, before Record.dataval key rs, behind Record.dataval key rs, rest, v, bs, crs, ?_,
    List.mem_cons_self, List.subset_cons_self blk bs, ?_⟩
  · unfold BTreeLeaf.new
    dsimp only
    rw [contents_eq hpin h.onPage, ok_bind, findSlotBefore_page hkey rs h.leaf.suits]
    rfl
  · have hsorted := h.leaf.sorted
    rw [← hsplit] at hsorted
    refine ⟨hpin, hsplit.symm ▸ h.onPage, rfl, hsplit.symm ▸ h.leaf.suits,
      (sorted_append.mp hsorted).2.1, fun a ha => h.leaf.sorted.le_of_mem_behind ha,
      hsplit.symm ▸ h.first_slot, h.chain⟩
  · have hnil : ofKey key (before Record.dataval key rs) = [] :=
      ofKey_eq_nil.mpr fun a ha => (lt_of_mem_before ha).ne
    show ofKey key (rs ++ crs) = ofKey key (behind Record.dataval key rs ++ crs)
    rw [ofKey_append, ofKey_append]
    nth_rewrite 1 [← hsplit]
    rw [ofKey_append, hnil, List.nil_append]

end Leaves

end SampleDB.OverflowChains
