import Mathlib.Order.WithBot
import SampleDB.DirInsertion

/-!
Which keys the pages of an index are for. On every level the pages divide the keys into
ranges, from a first key up to the first key of another page or without an end. An entry of
a directory page leads to the page for the keys from its own key up to the next one.
-/
namespace SampleDB.KeyRanges

open Words Pages Blocks Schemas Rollback KeyOrder BTreePages BTreeLeaves BTreeDirs PageLists
open SortedLists DirInsertion

/-- The range of every block of a level; other blocks have none. -/
abbrev Ranges := ℕ → Option (Value × WithTop Value)

structure Apart (ranges : Ranges) : Prop where
  lt : ∀ b lo hi, ranges b = some (lo, hi) → (lo : WithTop Value) < hi
  apart : ∀ b b' lo hi lo' hi', ranges b = some (lo, hi) → ranges b' = some (lo', hi') →
    b ≠ b' → hi ≤ lo' ∨ hi' ≤ lo

/-- The key of the next entry, or the end of the range. -/
def nextKey (rs : List (Record ℕ)) (hi : WithTop Value) : WithTop Value :=
  match rs with
  | [] => hi
  | r :: _ => r.dataval

/-- Every entry leads to the block for its keys. -/
def Links (below : Ranges) : List (Record ℕ) → WithTop Value → Prop
  | [], _ => True
  | r :: rs, hi => below r.data = some (r.dataval, nextKey rs hi) ∧ Links below rs hi

/-- A directory page for a range of keys. What the slots behind its entries hold can be read. -/
structure IsNode (B : BlockSize) (L : Layout) (below : Ranges) (level : ℕ) (lo : Value)
    (hi : WithTop Value) (rs : List (Record ℕ)) (rest : List (Option (Record ℕ))) : Prop where
  dir : IsDir B L (page level rs rest) level rs
  readable : ∀ o ∈ rest, ∃ r, o = some r ∧ Suits L r.dataval
  first : rs.head?.map Record.dataval = some lo
  lt_hi : ∀ r ∈ rs, (r.dataval : WithTop Value) < hi
  links : Links below rs hi

/-- The pages of one level of the directory. -/
structure LevelOk (B : BlockSize) (L : Layout) (blocks : List (Contents ℕ)) (level : ℕ)
    (below here : Ranges) : Prop where
  node : ∀ b lo hi, here b = some (lo, hi) → ∃ rs rest, blocks[b]? = some (page level rs rest) ∧
    IsNode B L below level lo hi rs rest
  apart : Apart here

/-- The range of a block is divided between it and a new block. -/
def divide (ranges : Ranges) (b newBlk : ℕ) (s : Value) : Ranges := fun x =>
  if x = newBlk then (ranges b).map (fun range => (s, range.2))
  else if x = b then (ranges b).map (fun range => (range.1, (s : WithTop Value)))
  else ranges x

section Ranges

variable {ranges below below' : Ranges} {b n x : ℕ} {lo s : Value} {hi : WithTop Value}
  {xs ys : List (Record ℕ)} {r : Record ℕ}

theorem nextKey_append (xs ys : List (Record ℕ)) (hi : WithTop Value) :
    nextKey (xs ++ ys) hi = nextKey xs (nextKey ys hi) := by
  cases xs <;> rfl

theorem links_append : Links below (xs ++ ys) hi ↔
    Links below xs (nextKey ys hi) ∧ Links below ys hi := by
  induction xs with
  | nil => exact ⟨fun h => ⟨trivial, h⟩, fun h => h.2⟩
  | cons x xs ih =>
    rw [List.cons_append, Links, Links, ih, nextKey_append, and_assoc]

/-- Links depend only on the blocks that the entries lead to. -/
theorem Links.congr (h : Links below xs hi) (heq : ∀ r ∈ xs, below' r.data = below r.data) :
    Links below' xs hi := by
  induction xs with
  | nil => trivial
  | cons x xs ih =>
    exact ⟨(heq x List.mem_cons_self).trans h.1,
      ih h.2 (fun r hr => heq r (List.mem_cons_of_mem _ hr))⟩

theorem Links.mem (h : Links below xs hi) (hr : r ∈ xs) :
    ∃ hi', below r.data = some (r.dataval, hi') := by
  induction xs with
  | nil => cases hr
  | cons x xs ih =>
    cases hr with
    | head => exact ⟨_, h.1⟩
    | tail _ hr => exact ih h.2 hr

theorem divide_new (h : ranges b = some (lo, hi)) : divide ranges b n s n = some (s, hi) := by
  unfold divide
  rw [if_pos rfl, h]
  rfl

theorem divide_old (hne : b ≠ n) (h : ranges b = some (lo, hi)) :
    divide ranges b n s b = some (lo, (s : WithTop Value)) := by
  unfold divide
  rw [if_neg hne, if_pos rfl, h]
  rfl

theorem divide_other (hn : x ≠ n) (hb : x ≠ b) : divide ranges b n s x = ranges x := by
  unfold divide
  rw [if_neg hn, if_neg hb]

theorem divide_cases {lo' : Value} {hi' : WithTop Value} (h : ranges b = some (lo, hi))
    (hx : divide ranges b n s x = some (lo', hi')) :
    (x = n ∧ lo' = s ∧ hi' = hi) ∨ (x = b ∧ lo' = lo ∧ hi' = s) ∨
      (x ≠ n ∧ x ≠ b ∧ ranges x = some (lo', hi')) := by
  unfold divide at hx
  by_cases hn : x = n
  · rw [if_pos hn, h] at hx
    cases hx
    exact Or.inl ⟨hn, rfl, rfl⟩
  · rw [if_neg hn] at hx
    by_cases hb : x = b
    · rw [if_pos hb, h] at hx
      cases hx
      exact Or.inr (Or.inl ⟨hb, rfl, rfl⟩)
    · rw [if_neg hb] at hx
      exact Or.inr (Or.inr ⟨hn, hb, hx⟩)

/-- The block with a key in its range. -/
theorem Apart.eq_of_mem (h : Apart ranges) {b b' : ℕ} {v lo lo' : Value}
    {hi hi' : WithTop Value} (hb : ranges b = some (lo, hi)) (hb' : ranges b' = some (lo', hi'))
    (hlo : lo ≤ v)
    (hhi : (v : WithTop Value) < hi) (hlo' : lo' ≤ v) (hhi' : (v : WithTop Value) < hi') :
    b = b' := by
  by_contra hne
  cases h.apart b b' lo hi lo' hi' hb hb' hne with
  | inl hle => exact absurd (hhi.trans_le (hle.trans (WithTop.coe_le_coe.mpr hlo'))) (lt_irrefl _)
  | inr hle => exact absurd (hhi'.trans_le (hle.trans (WithTop.coe_le_coe.mpr hlo))) (lt_irrefl _)

theorem Apart.divide (h : Apart ranges) (hb : ranges b = some (lo, hi)) (hlo : lo < s)
    (hhi : (s : WithTop Value) < hi) : Apart (divide ranges b n s) := by
  have hlo' : (lo : WithTop Value) < s := WithTop.coe_lt_coe.mpr hlo
  refine ⟨?_, ?_⟩
  · intro x lo' hi' hx
    obtain ⟨-, rfl, rfl⟩ | ⟨-, rfl, rfl⟩ | ⟨-, -, hx⟩ := divide_cases hb hx
    · exact hhi
    · exact hlo'
    · exact h.lt x lo' hi' hx
  · intro x y lo₁ hi₁ lo₂ hi₂ hx hy hne
    obtain ⟨rfl, rfl, rfl⟩ | ⟨rfl, rfl, rfl⟩ | ⟨-, hxb, hx'⟩ := divide_cases hb hx
    · obtain ⟨rfl, -, -⟩ | ⟨-, rfl, rfl⟩ | ⟨-, hyb, hy⟩ := divide_cases hb hy
      · exact absurd rfl hne
      · exact Or.inr le_rfl
      · cases h.apart b y _ _ _ _ hb hy (Ne.symm hyb) with
        | inl hle => exact Or.inl hle
        | inr hle => exact Or.inr (hle.trans hlo'.le)
    · obtain ⟨-, rfl, rfl⟩ | ⟨rfl, -, -⟩ | ⟨-, hyb, hy⟩ := divide_cases hb hy
      · exact Or.inl le_rfl
      · exact absurd rfl hne
      · cases h.apart x y _ _ _ _ hb hy (Ne.symm hyb) with
        | inl hle => exact Or.inl (hhi.le.trans hle)
        | inr hle => exact Or.inr hle
    · obtain ⟨-, rfl, rfl⟩ | ⟨-, rfl, rfl⟩ | ⟨-, -, hy⟩ := divide_cases hb hy
      · cases h.apart x b _ _ _ _ hx' hb hxb with
        | inl hle => exact Or.inl (hle.trans hlo'.le)
        | inr hle => exact Or.inr hle
      · cases h.apart x b _ _ _ _ hx' hb hxb with
        | inl hle => exact Or.inl hle
        | inr hle => exact Or.inr (hhi.le.trans hle)
      · exact h.apart x y _ _ _ _ hx' hy hne

end Ranges

section Pages

variable {B : BlockSize} {L : Layout} {below : Ranges} {level : ℕ} {lo key : Value}
  {hi : WithTop Value} {rs : List (Record ℕ)} {rest : List (Option (Record ℕ))}

/-- All keys of the page are smaller than the key, which stands in the slot behind them. -/
def misreads (c : Contents ℕ) (key : Value) : Bool :=
  (c.slots.take c.numRecs.toNat).all (fun o => o.all (fun r => r.dataval < key)) &&
    (c.slots[c.numRecs.toNat]?.join).any (fun r => r.dataval = key)

theorem misreads_page : misreads (page level rs rest) key = true ↔
    (∀ r ∈ rs, r.dataval < key) ∧ ∃ r, rest.head? = some (some r) ∧ r.dataval = key := by
  have htake : (page level rs rest).slots.take (page level rs rest).numRecs.toNat =
      rs.map some := by
    show (rs.map some ++ rest).take (rs.length : ℤ).toNat = _
    have hlen : rs.length = (rs.map some).length := (List.length_map some).symm
    rw [Int.toNat_natCast, hlen, List.take_left]
  have hget : (page level rs rest).slots[(page level rs rest).numRecs.toNat]? = rest.head? := by
    show (rs.map some ++ rest)[(rs.length : ℤ).toNat]? = _
    rw [Int.toNat_natCast, List.getElem?_append_right (by rw [List.length_map]), List.length_map,
      Nat.sub_self, List.head?_eq_getElem?]
  unfold misreads
  rw [htake, hget, Bool.and_eq_true, List.all_map, List.all_eq_true, Option.any_eq_true]
  refine and_congr ⟨fun h r hr => of_decide_eq_true (h r hr),
    fun h r hr => decide_eq_true (h r hr)⟩ ⟨?_, ?_⟩
  · rintro ⟨r, hr, hkey⟩
    exact ⟨r, Option.join_eq_some_iff.mp hr, of_decide_eq_true hkey⟩
  · rintro ⟨r, hr, hkey⟩
    exact ⟨r, Option.join_eq_some_iff.mpr hr, decide_eq_true hkey⟩

/-- The key of a record of a page. -/
theorem getDataVal_at (level : ℕ) (rest : List (Option (Record ℕ))) (xs ys : List (Record ℕ))
    {r : Record ℕ} (hr : Suits L r.dataval) :
    (page level (xs ++ r :: ys) rest).getDataVal L xs.length = .ok r.dataval := by
  unfold Contents.getDataVal
  rw [record_page hr.not_boolean]
  rfl

theorem getDataVal_behind (level : ℕ) (rs : List (Record ℕ)) (rest : List (Option (Record ℕ)))
    {r : Record ℕ} (hr : Suits L r.dataval) :
    (page level rs (some r :: rest)).getDataVal L rs.length = .ok r.dataval := by
  unfold Contents.getDataVal
  rw [record_eq (r := r) hr.not_boolean]
  · rfl
  · show (rs.map some ++ some r :: rest)[rs.length]? = _
    have hlen : rs.length = (rs.map some).length := (List.length_map some).symm
    rw [hlen]
    exact getElem?_middle _ _ _

/-- The slot behind the smaller keys decides between itself and the one in front of it. -/
theorem slotOf_eq {v : Value} (hsuits : ∀ r ∈ rs, Suits L r.dataval) (hkey : Compares L key)
    (hv : Suits L v) (hget : (page level rs rest).getDataVal L
      (before Record.dataval key rs).length = .ok v) :
    BTreeDir.slotOf L (page level rs rest) key =
      .ok (if v = key then ((before Record.dataval key rs).length : ℤ)
        else (before Record.dataval key rs).length - 1) := by
  unfold BTreeDir.slotOf
  rw [findSlotBefore_page hkey rs hsuits, ok_bind, Int.sub_add_cancel]
  show (Contents.getDataVal L _ ((before Record.dataval key rs).length : ℤ) >>= _) = _
  rw [hget, ok_bind, equal_eq (hkey _ hv), ok_bind]
  by_cases heq : v = key
  · rw [decide_eq_true heq, if_pos heq]
    rfl
  · rw [decide_eq_false heq, if_neg heq]
    rfl

/-- The entry for a key of the page, unless the slot behind the entries is taken for one. -/
theorem IsNode.slotOf (h : IsNode B L below level lo hi rs rest) (hkey : Compares L key)
    (hlo : lo ≤ key) (hhi : (key : WithTop Value) < hi)
    (hclear : misreads (page level rs rest) key = false) :
    ∃ xs r ys, rs = xs ++ r :: ys ∧ r.dataval ≤ key ∧ (key : WithTop Value) < nextKey ys hi ∧
      BTreeDir.slotOf L (page level rs rest) key = .ok xs.length := by
  have hsplit := before_append_behind Record.dataval key rs
  -- the last smaller key, if the one behind it is not the key itself
  have hlast : (∀ r, (behind Record.dataval key rs).head? = some r → r.dataval ≠ key) →
      ∃ xs r ys, rs = xs ++ r :: ys ∧ before Record.dataval key rs = xs ++ [r] ∧
        r.dataval ≤ key ∧ (key : WithTop Value) < nextKey ys hi := by
    intro hne
    cases List.eq_nil_or_concat (before Record.dataval key rs) with
    | inl hnil =>
      rw [hnil, List.nil_append] at hsplit
      have hfirst := h.first
      rw [← hsplit] at hfirst
      obtain ⟨r, hr, hrlo⟩ := Option.map_eq_some_iff.mp hfirst
      have hmem : r ∈ behind Record.dataval key rs := List.mem_of_head? hr
      exact absurd (le_antisymm (hrlo ▸ hlo) (h.dir.sorted.sorted.le_of_mem_behind hmem)) (hne r hr)
    | inr hconcat =>
      obtain ⟨xs, r, hxs⟩ := hconcat
      rw [List.concat_eq_append] at hxs
      refine ⟨xs, r, behind Record.dataval key rs, ?_, hxs, ?_, ?_⟩
      · rw [hxs, List.append_assoc] at hsplit
        exact hsplit.symm
      · exact (lt_of_mem_before (hxs ▸ List.mem_append_right _ List.mem_cons_self)).le
      · cases hbehind : behind Record.dataval key rs with
        | nil => exact hhi
        | cons r' ys =>
          have hmem : r' ∈ behind Record.dataval key rs := hbehind ▸ List.mem_cons_self
          exact WithTop.coe_lt_coe.mpr (lt_of_le_of_ne (h.dir.sorted.sorted.le_of_mem_behind hmem)
            (Ne.symm (hne r' (by rw [hbehind]; rfl))))
  cases hbehind : behind Record.dataval key rs with
  | cons r ys =>
    have hmem : r ∈ rs := hsplit ▸ List.mem_append_right _ (hbehind ▸ List.mem_cons_self)
    have hr : Suits L r.dataval := h.dir.suits r hmem
    rw [hbehind] at hsplit
    have hget := getDataVal_at level rest (before Record.dataval key rs) ys hr
    rw [hsplit] at hget
    have hslot := slotOf_eq h.dir.suits hkey hr hget
    by_cases heq : r.dataval = key
    · rw [if_pos heq] at hslot
      refine ⟨_, r, ys, hsplit.symm, heq.le, ?_, hslot⟩
      have hsorted := h.dir.sorted
      rw [← hsplit] at hsorted
      cases ys with
      | nil => exact hhi
      | cons r' ys =>
        exact WithTop.coe_lt_coe.mpr (heq ▸ (List.pairwise_cons.mp
          (strictlySorted_append.mp hsorted).2.1).1 r' List.mem_cons_self)
    · obtain ⟨xs, r', ys', hrs, hbefore, hle, hlt⟩ := hlast (fun a ha => by
        rw [hbehind] at ha
        exact Option.some.inj ha ▸ heq)
      rw [if_neg heq, hbefore, List.length_append, List.length_singleton,
        show ((xs.length + 1 : ℕ) : ℤ) - 1 = xs.length by omega] at hslot
      exact ⟨xs, r', ys', hrs, hle, hlt, hslot⟩
  | nil =>
    rw [hbehind, List.append_nil] at hsplit
    obtain ⟨z, rest, rfl⟩ : ∃ z tail, rest = z :: tail := by
      cases rest with
      | nil => exact absurd h.dir.room_page (Nat.ne_of_lt (lt_capacity h.dir.fits))
      | cons z tail => exact ⟨z, tail, rfl⟩
    obtain ⟨r, rfl, hr⟩ := h.readable z List.mem_cons_self
    have hne : r.dataval ≠ key := by
      intro heq
      refine absurd (misreads_page.mpr ⟨?_, r, rfl, heq⟩) (Bool.eq_false_iff.mp hclear)
      intro a ha
      rw [← hsplit] at ha
      exact lt_of_mem_before ha
    have hget := getDataVal_behind level rs rest hr
    have hslot := slotOf_eq h.dir.suits hkey hr (by rw [hsplit]; exact hget)
    obtain ⟨xs, r', ys', hrs, hbefore, hle, hlt⟩ := hlast (fun a ha => by
      rw [hbehind] at ha
      cases ha)
    rw [if_neg hne, hbefore, List.length_append, List.length_singleton,
      show ((xs.length + 1 : ℕ) : ℤ) - 1 = xs.length by omega] at hslot
    exact ⟨xs, r', ys', hrs, hle, hlt, hslot⟩

end Pages

section Entries

variable {B : BlockSize} {L : Layout} {below : Ranges} {level : ℕ} {lo : Value}
  {hi : WithTop Value} {rs xs ys : List (Record ℕ)} {rest : List (Option (Record ℕ))}
  {r : Record ℕ} {n : ℕ} {s : Value}

theorem IsNode.le_of_mem (h : IsNode B L below level lo hi rs rest) (hr : r ∈ rs) :
    lo ≤ r.dataval := by
  have hfirst := h.first
  have hsorted := h.dir.sorted
  cases rs with
  | nil => cases hr
  | cons a rs =>
    have ha : a.dataval = lo := Option.some.inj hfirst
    cases hr with
    | head => exact ha.ge
    | tail _ hr => exact ha ▸ ((List.pairwise_cons.mp hsorted).1 r hr).le

/-- The link of an entry in the middle of a page. -/
theorem IsNode.link (h : IsNode B L below level lo hi (xs ++ r :: ys) rest) :
    below r.data = some (r.dataval, nextKey ys hi) :=
  (links_append.mp h.links).2.1

/-- Another entry of the page leads to another block. -/
theorem IsNode.other (h : IsNode B L below level lo hi (xs ++ r :: ys) rest) {a : Record ℕ}
    (ha : a ∈ xs ∨ a ∈ ys) : a.data ≠ r.data := by
  intro heq
  have hmem : a ∈ xs ++ r :: ys := by
    cases ha with
    | inl ha => exact List.mem_append_left _ ha
    | inr ha => exact List.mem_append_right _ (List.mem_cons_of_mem _ ha)
  obtain ⟨hi', hlink⟩ := h.links.mem hmem
  rw [heq, h.link] at hlink
  have hkey : r.dataval = a.dataval := congrArg Prod.fst (Option.some.inj hlink)
  have hsorted := strictlySorted_append.mp h.dir.sorted
  cases ha with
  | inl ha => exact absurd (hsorted.2.2 a ha r List.mem_cons_self) (hkey ▸ lt_irrefl _)
  | inr ha => exact absurd ((List.pairwise_cons.mp hsorted.2.1).1 a ha) (hkey ▸ lt_irrefl _)

theorem links_divide (h : IsNode B L below level lo hi (xs ++ r :: ys) rest)
    (hn : below n = none) :
    Links (divide below r.data n s) (xs ++ r :: ⟨s, n⟩ :: ys) hi := by
  have hfresh : ∀ a ∈ xs ++ r :: ys, a.data ≠ n := by
    intro a ha heq
    obtain ⟨hi', hlink⟩ := h.links.mem ha
    rw [heq, hn] at hlink
    cases hlink
  obtain ⟨hfront, hlink, hback⟩ := links_append.mp h.links
  have hr : r.data ≠ n := hfresh r (List.mem_append_right _ List.mem_cons_self)
  refine links_append.mpr ⟨hfront.congr (fun a ha => ?_), divide_old hr hlink,
    divide_new hlink, hback.congr (fun a ha => ?_)⟩
  · exact divide_other (hfresh a (List.mem_append_left _ ha)) (h.other (Or.inl ha))
  · exact divide_other (hfresh a (List.mem_append_right _ (List.mem_cons_of_mem _ ha)))
      (h.other (Or.inr ha))

/-- The entries with the new one in its place. -/
theorem sorted_divide (h : StrictlySorted Record.dataval (xs ++ r :: ys)) (hlo : r.dataval < s)
    (hhi : (s : WithTop Value) < nextKey ys hi) :
    StrictlySorted Record.dataval (xs ++ r :: ⟨s, n⟩ :: ys) := by
  obtain ⟨hxs, hys, hcross⟩ := strictlySorted_append.mp h
  obtain ⟨hr, hys⟩ := List.pairwise_cons.mp hys
  have hs : ∀ a ∈ ys, s < a.dataval := by
    intro a ha
    cases ys with
    | nil => cases ha
    | cons y ys =>
      have hy : s < y.dataval := WithTop.coe_lt_coe.mp hhi
      cases ha with
      | head => exact hy
      | tail _ ha => exact hy.trans ((List.pairwise_cons.mp hys).1 a ha)
  refine strictlySorted_append.mpr ⟨hxs, List.pairwise_cons.mpr ⟨?_, List.pairwise_cons.mpr
    ⟨hs, hys⟩⟩, ?_⟩
  · intro a ha
    cases ha with
    | head => exact hlo
    | tail _ ha => exact hlo.trans (hs a ha)
  · intro a ha b hb
    cases hb with
    | head => exact hcross a ha r List.mem_cons_self
    | tail _ hb =>
      cases hb with
      | head => exact (hcross a ha r List.mem_cons_self).trans hlo
      | tail _ hb => exact hcross a ha b (List.mem_cons_of_mem _ hb)

/-- Nothing changes for a page without the divided block. -/
theorem IsNode.divide_of_ne (h : IsNode B L below level lo hi rs rest) {c : ℕ}
    (hn : below n = none) (hc : ∀ a ∈ rs, a.data ≠ c) :
    IsNode B L (divide below c n s) level lo hi rs rest := by
  refine ⟨h.dir, h.readable, h.first, h.lt_hi, h.links.congr (fun a ha => ?_)⟩
  refine divide_other (fun heq => ?_) (hc a ha)
  obtain ⟨hi', hlink⟩ := h.links.mem ha
  rw [heq, hn] at hlink
  cases hlink

/-- The entry of the page for a key of its range. -/
theorem IsNode.exists_entry (h : IsNode B L below level lo hi rs rest) (hlo : lo ≤ s)
    (hhi : (s : WithTop Value) < hi) :
    ∃ xs r ys, rs = xs ++ r :: ys ∧ r.dataval ≤ s ∧ (s : WithTop Value) < nextKey ys hi := by
  have hfirst := h.first
  obtain ⟨a, tail, rfl⟩ : ∃ a tail, rs = a :: tail := by
    cases rs with
    | nil => cases hfirst
    | cons a tail => exact ⟨a, tail, rfl⟩
  have ha : a.dataval ≤ s := (Option.some.inj hfirst).trans_le hlo
  clear hfirst h
  induction tail generalizing a with
  | nil => exact ⟨[], a, [], rfl, ha, hhi⟩
  | cons b tail ih =>
    by_cases hb : b.dataval ≤ s
    · obtain ⟨xs, r, ys, heq, hr, hnext⟩ := ih b hb
      exact ⟨a :: xs, r, ys, congrArg (List.cons a) heq, hr, hnext⟩
    · exact ⟨[], a, b :: tail, rfl, ha, WithTop.coe_lt_coe.mpr (not_le.mp hb)⟩

end Entries

section Levels

variable {B : BlockSize} {L : Layout} {f : IndexFile ℕ} {below here : Ranges} {level blk n : ℕ}
  {lo s : Value} {hi : WithTop Value} {xs ys : List (Record ℕ)} {r : Record ℕ}
  {rest : List (Option (Record ℕ))}

theorem LevelOk.lt_length {blocks : List (Contents ℕ)} (h : LevelOk B L blocks level below here)
    {b : ℕ} {range : Value × WithTop Value} (hb : here b = some range) : b < blocks.length := by
  obtain ⟨rs, rest, hblk, -⟩ := h.node b range.1 range.2 hb
  exact (List.getElem?_eq_some_iff.mp hblk).1

theorem LevelOk.fresh {blocks : List (Contents ℕ)} (h : LevelOk B L blocks level below here) :
    here blocks.length = none := by
  cases hb : here blocks.length with
  | none => rfl
  | some range => exact absurd (h.lt_length hb) (lt_irrefl _)

/-- Two pages of a level do not lead to the same block. -/
theorem LevelOk.other_page {blocks : List (Contents ℕ)}
    (h : LevelOk B L blocks level below here) (hhere : here blk = some (lo, hi))
    (hnode : IsNode B L below level lo hi (xs ++ r :: ys) rest) {b : ℕ} {lo' : Value}
    {hi' : WithTop Value} {rs' : List (Record ℕ)} {rest' : List (Option (Record ℕ))}
    (hb : here b = some (lo', hi')) (hne : b ≠ blk)
    (hnode' : IsNode B L below level lo' hi' rs' rest') : ∀ a ∈ rs', a.data ≠ r.data := by
  intro a ha heq
  obtain ⟨hi'', hlink⟩ := hnode'.links.mem ha
  rw [heq, hnode.link] at hlink
  have hkey : r.dataval = a.dataval := congrArg Prod.fst (Option.some.inj hlink)
  have hmem : r ∈ xs ++ r :: ys := List.mem_append_right _ List.mem_cons_self
  have hlo : (lo : WithTop Value) ≤ r.dataval := WithTop.coe_le_coe.mpr (hnode.le_of_mem hmem)
  have hlo' : (lo' : WithTop Value) ≤ a.dataval := WithTop.coe_le_coe.mpr (hnode'.le_of_mem ha)
  have hhi := hnode.lt_hi r hmem
  have hhi' := hnode'.lt_hi a ha
  rw [hkey] at hlo hhi
  cases h.apart.apart b blk lo' hi' lo hi hb hhere hne with
  | inl hle => exact absurd (hhi'.trans_le (hle.trans hlo)) (lt_irrefl _)
  | inr hle => exact absurd (hhi.trans_le (hle.trans hlo')) (lt_irrefl _)

/-- A level after a change of one of its pages, below which a block was divided. -/
theorem LevelOk.change {blocks blocks' : List (Contents ℕ)}
    (h : LevelOk B L blocks level below here) (hhere : here blk = some (lo, hi))
    (hnode : IsNode B L below level lo hi (xs ++ r :: ys) rest) (hn : below n = none)
    (hframe : ∀ b, b ≠ blk → b < blocks.length → blocks'[b]? = blocks[b]?)
    {rs' : List (Record ℕ)} {rest' : List (Option (Record ℕ))}
    (hblk : blocks'[blk]? = some (page level rs' rest'))
    (hnode' : IsNode B L (divide below r.data n s) level lo hi rs' rest') :
    LevelOk B L blocks' level (divide below r.data n s) here := by
  refine ⟨fun b lo' hi' hb => ?_, h.apart⟩
  by_cases hbb : b = blk
  · rw [hbb, hhere] at hb
    cases hb
    exact ⟨rs', rest', hbb ▸ hblk, hnode'⟩
  · obtain ⟨rs₁, rest₁, hblk₁, hnode₁⟩ := h.node b lo' hi' hb
    refine ⟨rs₁, rest₁, (hframe b hbb (h.lt_length hb)).trans hblk₁, hnode₁.divide_of_ne hn ?_⟩
    exact h.other_page hhere hnode hb hbb hnode₁

/-- The same when the changed page was divided. -/
theorem LevelOk.change_divided {blocks blocks' : List (Contents ℕ)}
    (h : LevelOk B L blocks level below here) (hhere : here blk = some (lo, hi))
    (hnode : IsNode B L below level lo hi (xs ++ r :: ys) rest) (hn : below n = none)
    (hframe : ∀ b, b ≠ blk → b < blocks.length → blocks'[b]? = blocks[b]?) {s' : Value}
    (hlo : lo < s') (hhi : (s' : WithTop Value) < hi)
    {rs₁ rs₂ : List (Record ℕ)} {rest₁ rest₂ : List (Option (Record ℕ))}
    (hblk : blocks'[blk]? = some (page level rs₁ rest₁))
    (hnode₁ : IsNode B L (divide below r.data n s) level lo s' rs₁ rest₁)
    (hnew : blocks'[blocks.length]? = some (page level rs₂ rest₂))
    (hnode₂ : IsNode B L (divide below r.data n s) level s' hi rs₂ rest₂) :
    LevelOk B L blocks' level (divide below r.data n s) (divide here blk blocks.length s') := by
  refine ⟨fun b lo' hi' hb => ?_, h.apart.divide hhere hlo hhi⟩
  obtain ⟨rfl, rfl, rfl⟩ | ⟨rfl, rfl, rfl⟩ | ⟨-, hbb, hb⟩ := divide_cases hhere hb
  · exact ⟨rs₂, rest₂, hnew, hnode₂⟩
  · exact ⟨rs₁, rest₁, hblk, hnode₁⟩
  · obtain ⟨rs', rest', hblk', hnode'⟩ := h.node b lo' hi' hb
    refine ⟨rs', rest', (hframe b hbb (h.lt_length hb)).trans hblk', hnode'.divide_of_ne hn ?_⟩
    exact h.other_page hhere hnode hb hbb hnode'

/-- A level is as it was where its own pages are. -/
theorem LevelOk.frame {blocks blocks' : List (Contents ℕ)}
    (h : LevelOk B L blocks level below here)
    (hframe : ∀ (b : ℕ) (c : Contents ℕ), blocks[b]? = some c → c.flag = level →
      blocks'[b]? = some c) :
    LevelOk B L blocks' level below here := by
  refine ⟨fun b lo hi hb => ?_, h.apart⟩
  obtain ⟨rs, rest, hblk, hnode⟩ := h.node b lo hi hb
  exact ⟨rs, rest, hframe b _ hblk rfl, hnode⟩

end Levels

end SampleDB.KeyRanges
