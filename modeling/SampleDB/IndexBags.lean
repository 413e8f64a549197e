import SampleDB.KeyedBags
import SampleDB.OverflowChains
import SampleDB.PinBalance

/-!
An index as a bag of keys and record identifiers. Every leaf has, with its overflow blocks, the
part of the bag in its range. Insertions and removals change the bag as they should, and a lookup
goes through the record identifiers under its key, as long as no page of the directory is misread
and no removal takes away what a chain of overflow blocks hangs on.
-/
namespace SampleDB.IndexBags

open Words Pages Blocks Schemas Rollback TableScans KeyOrder BTreePages BTreeLeaves BTreeDirs
open BTreeIndexes PageLists SortedLists LeafInsertion KeyRanges DirGrowth RootGrowth Routing
open IndexGrowth PinBalance OverflowChains KeyedBags Runs

/-- What a caller reads from an index that it has positioned, in at most so many rounds. -/
def collect : ℕ → BTreeIndex → Result (List Rid)
  | 0, _ => .error .outside
  | n + 1, idx => do
      let (found, idx) ← idx.next
      if found then
        let datarid ← idx.getDataRid
        return datarid :: (← collect n idx)
      else return []

/-- The record identifiers under a key. -/
def lookup (fuel : ℕ) (idx : BTreeIndex) (key : Value) : Result (List Rid) := do
  collect fuel (← idx.beforeFirst fuel key)

/-- The leaf for a key, and the leaf as it stands on the record that `remove` takes away. -/
def taken (fuel : ℕ) (idx : BTreeIndex) (dataval : Value) (datarid : Rid) :
    Result (Option (ℕ × BTreeLeaf)) := do
  let leaf ← leafFor fuel idx dataval
  return (← find idx.leafOf datarid fuel leaf).map (fun at' => (leaf.contents, at'))

/-- A removal that returns. No page is misread on the way of its key, and the page that it takes
the record from keeps its first key if it has or is an overflow block. -/
structure CleanRemove (idx : BTreeIndex) (op : Value × Rid) (idx' : BTreeIndex) : Prop where
  compares : Compares idx.leafOf op.1
  clear : Clear idx.dirOf idx.dirFile.blocks op.1 0 0
  keeps : ∀ fuel blk leaf, taken fuel idx op.1 op.2 = .ok (some (blk, leaf)) →
    KeepsFirst idx.leafOf blk leaf
  returns : ∃ n, ∀ fuel, n ≤ fuel → idx.remove fuel op.1 op.2 = .ok idx'

/-- A call that returns, and that is clean if it changes the index. -/
def CleanStep (B : BlockSize) (idx : BTreeIndex) (op : IndexOp) (idx' : BTreeIndex) : Prop :=
  match op with
  | .beforeFirst key => ∃ fuel, idx.beforeFirst fuel key = .ok idx'
  | .next => ∃ found, idx.next = .ok (found, idx')
  | .insert dataval datarid => CleanInsert B idx (dataval, datarid) idx'
  | .remove dataval datarid => CleanRemove idx (dataval, datarid) idx'

/-- What a call does to the bag. -/
def update (bag : Multiset (Value × Rid)) : IndexOp → Multiset (Value × Rid)
  | .insert dataval datarid => (dataval, datarid) ::ₘ bag
  | .remove dataval datarid => bag.erase (dataval, datarid)
  | _ => bag

/-- Records as elements of the bag. -/
def entries (rs : List (Record Rid)) : Multiset (Value × Rid) :=
  (rs.map (fun r => (r.dataval, r.data)) : List (Value × Rid))

/-- Every leaf has its part of the bag, and its overflow blocks are no other leaf's. -/
structure Stored (B : BlockSize) (L : Layout) (blocks : List (Contents Rid)) (ranges : Ranges)
    (chains : ℕ → List ℕ) (bag : Multiset (Value × Rid)) : Prop where
  holds : ∀ b lo hi, ranges b = some (lo, hi) → ∃ flag rs rest v crs,
    LeafHolds B L blocks b flag rs rest v (chains b) crs ∧ entries (rs ++ crs) = within bag lo hi
  overflow : ∀ b, ∀ x ∈ chains b, ranges x = none ∧ x < blocks.length
  nodup : ∀ b, (chains b).Nodup
  apart : ∀ b b' x, x ∈ chains b → x ∈ chains b' → b = b'

section Entries

variable {rs rs' : List (Record Rid)} {key : Value}

theorem entries_perm (h : rs.Perm rs') : entries rs = entries rs' :=
  Multiset.coe_eq_coe.mpr (h.map _)

theorem entries_cons (r : Record Rid) (rs : List (Record Rid)) :
    entries (r :: rs) = (r.dataval, r.data) ::ₘ entries rs := rfl

theorem entries_append : entries (rs ++ rs') = entries rs + entries rs' := by
  unfold entries
  rw [List.map_append, Multiset.coe_add]

theorem forall_entries {p : Value → Prop} (h : ∀ r ∈ rs, p r.dataval) : ∀ e ∈ entries rs, p e.1 := by
  intro e he
  obtain ⟨r, hr, rfl⟩ := List.mem_map.mp (Multiset.mem_coe.mp he)
  exact h r hr

theorem mem_entries {r : Record Rid} : (r.dataval, r.data) ∈ entries rs ↔ r ∈ rs := by
  unfold entries
  rw [Multiset.mem_coe, List.mem_map]
  constructor
  · rintro ⟨⟨dataval, data⟩, hr, heq⟩
    cases heq
    exact hr
  · exact fun hr => ⟨r, hr, rfl⟩

end Entries

section Leaves

variable {B : BlockSize} {L : Layout} {blocks blocks' : List (Contents Rid)}
  {ranges ranges' : Ranges} {chains : ℕ → List ℕ} {bag : Multiset (Value × Rid)} {blk b : ℕ}
  {lo lo' : Value} {hi hi' : WithTop Value} {r : Record Rid}

/-- The blocks of another leaf are not those of this one. -/
theorem Stored.other (h : Stored B L blocks ranges chains bag) (hblk : ranges blk = some (lo, hi))
    (hb : ranges b = some (lo', hi')) (hne : b ≠ blk) {x : ℕ} (hx : x ∈ b :: chains b) :
    x ∉ blk :: chains blk ∧ x < blocks.length := by
  obtain ⟨flag, rs, rest, v, crs, hholds, -⟩ := h.holds b lo' hi' hb
  have hlt : b < blocks.length := (List.getElem?_eq_some_iff.mp hholds.onPage).1
  cases hx with
  | head =>
    refine ⟨fun hmem => ?_, hlt⟩
    cases hmem with
    | head => exact hne rfl
    | tail _ hmem =>
      rw [(h.overflow blk b hmem).1] at hb
      cases hb
  | tail _ hx =>
    obtain ⟨hnone, hlt'⟩ := h.overflow b x hx
    refine ⟨fun hmem => ?_, hlt'⟩
    cases hmem with
    | head =>
      rw [hnone] at hblk
      cases hblk
    | tail _ hmem => exact hne (h.apart b blk x hx hmem)

/-- A key of one range is in no other. -/
theorem not_inRange (hap : Apart ranges) (hblk : ranges blk = some (lo, hi))
    (hb : ranges b = some (lo', hi')) (hne : b ≠ blk) {v : Value} (hv : InRange lo hi v) :
    ¬ InRange lo' hi' v :=
  fun hv' => hne (hap.eq_of_mem hb hblk hv'.1 hv'.2 hv.1 hv.2)

/-- A leaf keeps its range and gets these overflow blocks; other leaves stay as they are. -/
theorem Stored.keep (h : Stored B L blocks ranges chains bag) (hblk : ranges blk = some (lo, hi))
    {bag' : Multiset (Value × Rid)} {bs' : List ℕ} (hlen : blocks.length ≤ blocks'.length)
    (hself : ∃ flag rs rest v crs, LeafHolds B L blocks' blk flag rs rest v bs' crs ∧
      entries (rs ++ crs) = within bag' lo hi)
    (hothers : ∀ b lo' hi', ranges b = some (lo', hi') → b ≠ blk → ∃ flag rs rest v crs,
      LeafHolds B L blocks' b flag rs rest v (chains b) crs ∧
        entries (rs ++ crs) = within bag' lo' hi')
    (hnodup : bs'.Nodup) (hbs : ∀ x ∈ bs', x ∈ chains blk ∨
      blocks.length ≤ x ∧ x < blocks'.length ∧ ranges x = none) :
    Stored B L blocks' ranges (Function.update chains blk bs') bag' := by
  have hfresh : ∀ b x, x ∈ bs' → x ∈ chains b → b = blk := by
    intro b x hx hxb
    cases hbs x hx with
    | inl hmem => exact h.apart b blk x hxb hmem
    | inr hnew => exact absurd (h.overflow b x hxb).2 (not_lt.mpr hnew.1)
  constructor
  · intro b lo' hi' hb
    by_cases heq : b = blk
    · subst heq
      rw [hblk] at hb
      cases hb
      rw [Function.update_self]
      exact hself
    · rw [Function.update_of_ne heq]
      exact hothers b lo' hi' hb heq
  · intro b x hx
    by_cases heq : b = blk
    · rw [heq, Function.update_self] at hx
      cases hbs x hx with
      | inl hmem => exact (h.overflow blk x hmem).imp_right fun hlt => hlt.trans_le hlen
      | inr hnew => exact ⟨hnew.2.2, hnew.2.1⟩
    · rw [Function.update_of_ne heq] at hx
      exact (h.overflow b x hx).imp_right fun hlt => hlt.trans_le hlen
  · intro b
    by_cases heq : b = blk
    · rw [heq, Function.update_self]
      exact hnodup
    · rw [Function.update_of_ne heq]
      exact h.nodup b
  · intro b b' x hx hx'
    by_cases heq : b = blk <;> by_cases heq' : b' = blk
    · rw [heq, heq']
    · rw [heq, Function.update_self] at hx
      rw [Function.update_of_ne heq'] at hx'
      exact heq.trans (hfresh b' x hx hx').symm
    · rw [heq', Function.update_self] at hx'
      rw [Function.update_of_ne heq] at hx
      exact (hfresh b x hx' hx).trans heq'.symm
    · rw [Function.update_of_ne heq] at hx
      rw [Function.update_of_ne heq'] at hx'
      exact h.apart b b' x hx hx'

/-- A leaf is divided. One of the two has the overflow blocks. -/
theorem Stored.divide {s : Value} (h : Stored B L blocks ranges chains bag)
    (hblk : ranges blk = some (lo, hi)) {bag' : Multiset (Value × Rid)} {bs bs' : List ℕ}
    (hlen : blocks.length < blocks'.length)
    (hlow : ∃ flag rs rest v crs, LeafHolds B L blocks' blk flag rs rest v bs crs ∧
      entries (rs ++ crs) = within bag' lo s)
    (hhigh : ∃ flag rs rest v crs, LeafHolds B L blocks' blocks.length flag rs rest v bs' crs ∧
      entries (rs ++ crs) = within bag' s hi)
    (hothers : ∀ b lo' hi', ranges b = some (lo', hi') → b ≠ blk → ∃ flag rs rest v crs,
      LeafHolds B L blocks' b flag rs rest v (chains b) crs ∧
        entries (rs ++ crs) = within bag' lo' hi')
    (hbs : bs = chains blk ∧ bs' = [] ∨ bs = [] ∧ bs' = chains blk) :
    Stored B L blocks' (KeyRanges.divide ranges blk blocks.length s)
      (Function.update (Function.update chains blk bs) blocks.length bs') bag' := by
  obtain ⟨flag, rs, rest, v, crs, hholds, -⟩ := h.holds blk lo hi hblk
  have hlt : blk < blocks.length := (List.getElem?_eq_some_iff.mp hholds.onPage).1
  -- where the overflow blocks of a leaf come from
  let own : ℕ → ℕ := fun b => if b = blocks.length then blk else b
  have hsub : ∀ b x, x ∈ Function.update (Function.update chains blk bs) blocks.length bs' b →
      x ∈ chains (own b) := by
    intro b x hx
    by_cases hn : b = blocks.length
    · rw [hn, Function.update_self] at hx
      show x ∈ chains (if b = blocks.length then blk else b)
      rw [if_pos hn]
      obtain ⟨-, rfl⟩ | ⟨-, rfl⟩ := hbs
      · cases hx
      · exact hx
    · rw [Function.update_of_ne hn] at hx
      show x ∈ chains (if b = blocks.length then blk else b)
      rw [if_neg hn]
      by_cases heq : b = blk
      · rw [heq, Function.update_self] at hx
        obtain ⟨rfl, -⟩ | ⟨rfl, -⟩ := hbs
        · rw [heq]
          exact hx
        · cases hx
      · rw [Function.update_of_ne heq] at hx
        exact hx
  constructor
  · intro b lo' hi' hb
    obtain ⟨rfl, rfl, rfl⟩ | ⟨rfl, rfl, rfl⟩ | ⟨hn, hne, hb'⟩ := divide_cases hblk hb
    · rw [Function.update_self]
      exact hhigh
    · rw [Function.update_of_ne hlt.ne, Function.update_self]
      exact hlow
    · rw [Function.update_of_ne hn, Function.update_of_ne hne]
      exact hothers b lo' hi' hb' hne
  · intro b x hx
    obtain ⟨hnone, hx'⟩ := h.overflow (own b) x (hsub b x hx)
    refine ⟨?_, hx'.trans hlen⟩
    rw [divide_other hx'.ne]
    · exact hnone
    · rintro rfl
      rw [hnone] at hblk
      cases hblk
  · intro b
    have hboth : bs.Nodup ∧ bs'.Nodup := by
      obtain ⟨rfl, rfl⟩ | ⟨rfl, rfl⟩ := hbs
      · exact ⟨h.nodup blk, List.nodup_nil⟩
      · exact ⟨List.nodup_nil, h.nodup blk⟩
    by_cases hn : b = blocks.length
    · rw [hn, Function.update_self]
      exact hboth.2
    · rw [Function.update_of_ne hn]
      by_cases heq : b = blk
      · rw [heq, Function.update_self]
        exact hboth.1
      · rw [Function.update_of_ne heq]
        exact h.nodup b
  · have hone : ∀ x, x ∈ bs → x ∈ bs' → False := by
      intro x hx hx'
      obtain ⟨-, rfl⟩ | ⟨rfl, -⟩ := hbs
      · cases hx'
      · cases hx
    have hmixed : ∀ b x, b ≠ blocks.length → x ∈ bs' →
        x ∈ Function.update (Function.update chains blk bs) blocks.length bs' b → False := by
      intro b x hb hx' hx
      have hmem := hsub b x hx
      have hmem' := hsub blocks.length x (by rw [Function.update_self]; exact hx')
      have heq := h.apart (own b) (own blocks.length) x hmem hmem'
      rw [show own b = b from if_neg hb, show own blocks.length = blk from if_pos rfl] at heq
      rw [Function.update_of_ne hb, heq, Function.update_self] at hx
      exact hone x hx hx'
    intro b b' x hx hx'
    by_cases hn : b = blocks.length <;> by_cases hn' : b' = blocks.length
    · rw [hn, hn']
    · rw [hn, Function.update_self] at hx
      exact absurd hx' (hmixed b' x hn' hx)
    · rw [hn', Function.update_self] at hx'
      exact absurd hx (hmixed b x hn hx')
    · have heq := h.apart (own b) (own b') x (hsub b x hx) (hsub b' x hx')
      rw [show own b = b from if_neg hn, show own b' = b' from if_neg hn'] at heq
      exact heq

section Insertions

variable {flag flag₁ flag₂ : ℤ} {rs rs₁ rs₂ crs : List (Record Rid)}
  {rest rest₁ rest₂ : List (Option (Record Rid))} {v s : Value} (h : Stored B L blocks ranges chains bag)
  (hap : Apart ranges) (hblk : ranges blk = some (lo, hi)) (hr : InRange lo hi r.dataval)
  (hholds : LeafHolds B L blocks blk flag rs rest v (chains blk) crs)
  (hbag : entries (rs ++ crs) = within bag lo hi)

include h hap hblk hr in
/-- The record goes to one leaf. -/
theorem Stored.others (hsame : ∀ x, x ≠ blk → x < blocks.length → blocks'[x]? = blocks[x]?) :
    ∀ b lo' hi', ranges b = some (lo', hi') → b ≠ blk → ∃ flag rs rest v crs,
      LeafHolds B L blocks' b flag rs rest v (chains b) crs ∧
        entries (rs ++ crs) = within ((r.dataval, r.data) ::ₘ bag) lo' hi' := by
  intro b lo' hi' hb hne
  obtain ⟨flag', rs', rest', v', crs', hholds', hbag'⟩ := h.holds b lo' hi' hb
  refine ⟨flag', rs', rest', v', crs', hholds'.congr fun x hx => ?_, ?_⟩
  · obtain ⟨hx', hlt⟩ := h.other hblk hb hne hx
    exact hsame x (fun heq => hx' (heq ▸ List.mem_cons_self)) hlt
  · rw [hbag', within_cons_other (not_inRange hap hblk hb hne hr)]

include hr hbag in
theorem entries_inserted {rs' : List (Record Rid)} (hperm : rs'.Perm (r :: rs)) :
    entries (rs' ++ crs) = within ((r.dataval, r.data) ::ₘ bag) lo hi := by
  rw [entries_perm (hperm.append_right crs), List.cons_append, entries_cons, hbag]
  exact (within_cons hr).symm

include h hblk hholds in
/-- The overflow blocks stay as they are. -/
theorem Stored.chain_kept (hsame : ∀ x, x ≠ blk → x < blocks.length → blocks'[x]? = blocks[x]?) :
    Chain B L blocks' v flag (chains blk) crs := by
  refine hholds.chain.congr fun x hx => ?_
  obtain ⟨hnone, hlt⟩ := h.overflow blk x hx
  refine hsame x ?_ hlt
  rintro rfl
  rw [hnone] at hblk
  cases hblk

include h hap hblk hr hholds hbag in
theorem Stored.whole {rs' : List (Record Rid)}
    (hleaf : IsLeaf B L (page flag rs' rest₁) flag rs') (hperm : rs'.Perm (r :: rs))
    (hkept : ChainKept flag rs flag rs') :
    Stored B L (blocks.set blk (page flag rs' rest₁)) ranges
      (Function.update chains blk (chains blk)) ((r.dataval, r.data) ::ₘ bag) := by
  have hlen := (List.getElem?_eq_some_iff.mp hholds.onPage).1
  have hsame : ∀ x, x ≠ blk → x < blocks.length →
      (blocks.set blk (page flag rs' rest₁))[x]? = blocks[x]? :=
    fun x hx _ => List.getElem?_set_ne (Ne.symm hx)
  refine h.keep hblk List.length_set.ge ⟨flag, rs', rest₁, v, crs, ⟨List.getElem?_set_self hlen,
    hleaf, fun hnil => ?_, fun hflag => (hkept.2 hflag).trans (hholds.first hflag),
    h.chain_kept hblk hholds hsame⟩, entries_inserted hr hbag hperm⟩
    (h.others hap hblk hr hsame) (h.nodup blk) fun x hx => Or.inl hx
  rw [hnil] at hperm
  exact absurd hperm.nil_eq.symm (List.cons_ne_nil r rs)

include h hap hblk hr hholds hbag in
/-- All records have one key, and some of them go to a first overflow block. -/
theorem Stored.continued (hleaf : IsLeaf B L (page blocks.length rs₁ rest₁) blocks.length rs₁)
    (hleaf' : IsLeaf B L (page flag rs₂ rest₂) flag rs₂) (hperm : (rs₁ ++ rs₂).Perm (r :: rs))
    (hne : rs₁ ≠ []) (hne' : rs₂ ≠ []) (hall : ∀ a ∈ rs₁ ++ rs₂, a.dataval = s) :
    Stored B L (blocks.set blk (page blocks.length rs₁ rest₁) ++ [page flag rs₂ rest₂]) ranges
      (Function.update chains blk (blocks.length :: chains blk))
      ((r.dataval, r.data) ::ₘ bag) := by
  have hlen := (List.getElem?_eq_some_iff.mp hholds.onPage).1
  have hlength : (blocks.set blk (page blocks.length rs₁ rest₁) ++
      [page flag rs₂ rest₂]).length = blocks.length + 1 := by
    rw [List.length_append, List.length_set, List.length_singleton]
  have hsame : ∀ x, x ≠ blk → x < blocks.length →
      (blocks.set blk (page blocks.length rs₁ rest₁) ++ [page flag rs₂ rest₂])[x]? = blocks[x]? :=
    fun x hx hlt => set_append_ne _ _ hx hlt
  have hs : 0 ≤ flag → s = v := by
    intro hflag
    obtain ⟨a, ha, hv⟩ := Option.map_eq_some_iff.mp (hholds.first hflag)
    rw [← hv]
    exact (hall a (hperm.symm.subset (List.mem_cons_of_mem r (List.mem_of_head? ha)))).symm
  have hnew : ranges blocks.length = none := by
    cases hrange : ranges blocks.length with
    | none => rfl
    | some range =>
      obtain ⟨_, _, _, _, _, hholds', -⟩ := h.holds blocks.length range.1 range.2 hrange
      exact absurd (List.getElem?_eq_some_iff.mp hholds'.onPage).1 (lt_irrefl _)
  have hfirst : rs₁.head?.map Record.dataval = some s := by
    obtain ⟨a, as, rfl⟩ := List.exists_cons_of_ne_nil hne
    exact congrArg some (hall a List.mem_cons_self)
  have hchain : Chain B L _ s blocks.length (blocks.length :: chains blk) (rs₂ ++ crs) :=
    .cons blocks.length flag rs₂ rest₂ (chains blk) crs (set_append_new blocks blk _ _)
      hleaf'.toHolds hne' (fun a ha => hall a (List.mem_append_right _ ha))
      ((h.chain_kept hblk hholds hsame).change_key hs)
  refine h.keep hblk ?_ ⟨blocks.length, rs₁, rest₁, s, rs₂ ++ crs, ⟨set_append_self _ _ hlen, hleaf,
    fun hnil => absurd hnil hne, fun _ => hfirst, hchain⟩, ?_⟩ (h.others hap hblk hr hsame) ?_ ?_
  · rw [hlength]
    exact Nat.le_succ _
  · rw [← List.append_assoc]
    exact entries_inserted hr hbag hperm
  · exact List.nodup_cons.mpr
      ⟨fun hmem => absurd (h.overflow blk _ hmem).2 (lt_irrefl _), h.nodup blk⟩
  · intro x hx
    cases hx with
    | head => exact Or.inr ⟨le_rfl, by rw [hlength]; exact Nat.lt_succ_self _, hnew⟩
    | tail _ hmem => exact Or.inl hmem

include hholds in
/-- The records of the overflow blocks have the first key of the page that keeps them. -/
theorem forall_kept {flag' : ℤ} {rs' : List (Record Rid)} (hkept : ChainKept flag rs flag' rs')
    {p : Value → Prop} (hp : ∀ a ∈ rs', p a.dataval) : ∀ a ∈ rs' ++ crs, p a.dataval := by
  refine List.forall_mem_append.mpr ⟨hp, fun a ha => ?_⟩
  have hflag : 0 ≤ flag := by
    refine not_lt.mp fun hneg => ?_
    rw [(hholds.chain.negative hneg).2.2] at ha
    cases ha
  have hhead := (hkept.2 hflag).trans (hholds.first hflag)
  obtain ⟨first, hfirst, hv⟩ := Option.map_eq_some_iff.mp hhead
  rw [hholds.chain.keys a ha, ← hv]
  exact hp first (List.mem_of_head? hfirst)

include h hap hblk hr hholds hbag in
/-- The page is divided, and the overflow blocks stay with their key. -/
theorem Stored.divided (hleaf : IsLeaf B L (page flag₁ rs₁ rest₁) flag₁ rs₁)
    (hleaf' : IsLeaf B L (page flag₂ rs₂ rest₂) flag₂ rs₂) (hperm : (rs₁ ++ rs₂).Perm (r :: rs))
    (hbelow : ∀ a ∈ rs₁, a.dataval < s) (habove : ∀ a ∈ rs₂, s ≤ a.dataval)
    (hfirst : rs₂.head?.map Record.dataval = some s) (hne : rs₁ ≠ [])
    (hkept : ChainKept flag rs flag₁ rs₁ ∧ flag₂ = -1 ∨ flag₁ = -1 ∧ ChainKept flag rs flag₂ rs₂)
    (hlos : lo < s) (hshi : (s : WithTop Value) < hi) :
    ∃ chains', Stored B L (blocks.set blk (page flag₁ rs₁ rest₁) ++ [page flag₂ rs₂ rest₂])
      (KeyRanges.divide ranges blk blocks.length s) chains' ((r.dataval, r.data) ::ₘ bag) := by
  have hlen := (List.getElem?_eq_some_iff.mp hholds.onPage).1
  have hlength : blocks.length <
      (blocks.set blk (page flag₁ rs₁ rest₁) ++ [page flag₂ rs₂ rest₂]).length := by
    rw [List.length_append, List.length_set]
    exact Nat.lt_succ_self _
  have hsame : ∀ x, x ≠ blk → x < blocks.length →
      (blocks.set blk (page flag₁ rs₁ rest₁) ++ [page flag₂ rs₂ rest₂])[x]? = blocks[x]? :=
    fun x hx hlt => set_append_ne _ _ hx hlt
  have hne' : rs₂ ≠ [] := by
    rintro rfl
    cases hfirst
  have hchain := h.chain_kept hblk hholds hsame
  have hothers := h.others hap hblk hr hsame
  have hsum := entries_inserted hr hbag hperm
  obtain ⟨hkept, rfl⟩ | ⟨rfl, hkept⟩ := hkept
  · have hparts : entries (rs₁ ++ crs) + entries (rs₂ ++ []) =
        within ((r.dataval, r.data) ::ₘ bag) lo hi := by
      rw [← hsum, ← entries_append]
      apply entries_perm
      rw [List.append_nil, List.append_assoc, List.append_assoc]
      exact List.perm_append_comm.append_left rs₁
    have hhigh : ∀ a ∈ rs₂ ++ [], s ≤ a.dataval := by
      rw [List.append_nil]
      exact habove
    obtain ⟨hpart, hpart'⟩ := within_divide hparts hshi.le hlos.le
      (forall_entries (p := fun a => a < s) (forall_kept (p := fun a => a < s) hholds hkept hbelow))
      (forall_entries (p := fun a => s ≤ a) hhigh)
    obtain ⟨rfl, hkept⟩ := hkept
    exact ⟨_, h.divide hblk hlength
      ⟨_, _, _, v, _, ⟨set_append_self _ _ hlen, hleaf, fun hnil => absurd hnil hne,
        fun hflag => (hkept hflag).trans (hholds.first hflag), hchain⟩, hpart⟩
      ⟨_, _, _, v, _, ⟨set_append_new _ _ _ _, hleaf', fun hnil => absurd hnil hne',
        fun hflag => absurd hflag (by decide), .nil⟩, hpart'⟩
      hothers (Or.inl ⟨rfl, rfl⟩)⟩
  · have hparts : entries (rs₁ ++ []) + entries (rs₂ ++ crs) =
        within ((r.dataval, r.data) ::ₘ bag) lo hi := by
      rw [← hsum, ← entries_append, List.append_nil, List.append_assoc]
    have hlow : ∀ a ∈ rs₁ ++ [], a.dataval < s := by
      rw [List.append_nil]
      exact hbelow
    obtain ⟨hpart, hpart'⟩ := within_divide hparts hshi.le hlos.le
      (forall_entries (p := fun a => a < s) hlow)
      (forall_entries (p := fun a => s ≤ a)
        (forall_kept (p := fun a => s ≤ a) hholds hkept habove))
    obtain ⟨rfl, hkept⟩ := hkept
    exact ⟨_, h.divide hblk hlength
      ⟨_, _, _, v, _, ⟨set_append_self _ _ hlen, hleaf, fun hnil => absurd hnil hne,
        fun hflag => absurd hflag (by decide), .nil⟩, hpart⟩
      ⟨_, _, _, v, _, ⟨set_append_new _ _ _ _, hleaf', fun hnil => absurd hnil hne',
        fun hflag => (hkept hflag).trans (hholds.first hflag), hchain⟩, hpart'⟩
      hothers (Or.inr ⟨rfl, rfl⟩)⟩

end Insertions

end Leaves

/-- The index holds the bag. -/
def BagOk (B : BlockSize) (idx : BTreeIndex) (bag : Multiset (Value × Rid)) : Prop :=
  ∃ height ranges chains, IndexOk B idx height ranges ∧
    Stored B idx.leafOf idx.leafFile.blocks (ranges 0) chains bag

section Index

variable {B : BlockSize} {type : FieldType} {length : ℕ} {idx idx' : BTreeIndex} {key : Value}
  {bag : Multiset (Value × Rid)} {op : Value × Rid}

/-- The bag is in the blocks. -/
theorem BagOk.congr (h : BagOk B idx bag) (htype : idx'.type = idx.type)
    (hlength : idx'.length = idx.length) (hdir : idx'.dirFile.blocks = idx.dirFile.blocks)
    (hleaf : idx'.leafFile.blocks = idx.leafFile.blocks) : BagOk B idx' bag := by
  obtain ⟨height, ranges, chains, ⟨hdirOk, hleaves⟩, hstored⟩ := h
  have hdirOf : idx'.dirOf = idx.dirOf := by
    unfold BTreeIndex.dirOf
    rw [htype, hlength]
  have hleafOf : idx'.leafOf = idx.leafOf := by
    unfold BTreeIndex.leafOf
    rw [htype, hlength]
  refine ⟨height, ranges, chains, ⟨?_, ?_⟩, ?_⟩
  · rw [hdirOf, hdir, htype]
    exact hdirOk
  · rw [hleafOf, hleaf]
    exact hleaves
  · rw [hleafOf, hleaf]
    exact hstored

end Index

def unused : Option (Record Rid) := some ⟨.int 0, ⟨0, 0⟩⟩

end SampleDB.IndexBags
