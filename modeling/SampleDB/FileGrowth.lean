import SampleDB.BTreeDirs

/-!
What the operations on a file of an index add to it. Dividing a page appends a block, whose
pin stays: the page of the new block is opened twice and closed once. The other operations
leave the number of the blocks and the pins as they are.
-/
namespace SampleDB.FileGrowth

open Words Pages Blocks Schemas Rollback KeyOrder BTreePages BTreeLeaves BTreeDirs

section Files

variable {P : Type} {L : Layout} {B : BlockSize} {f f' f'' : IndexFile P} {c : Contents P}
  {blk n k m : ℕ}

/-- The file has `k` blocks more, and one pin more on each of them. -/
structure Appended (f f' : IndexFile P) (k : ℕ) : Prop where
  length : f'.blocks.length = f.blocks.length + k
  pins : f'.pins.Perm (List.range' f.blocks.length k ++ f.pins)

/-- The blocks other than `blk` hold what they held. -/
def Frame (blk : ℕ) (f f' : IndexFile P) : Prop :=
  ∀ b c, b ≠ blk → f.blocks[b]? = some c → f'.blocks[b]? = some c

theorem Appended.refl (f : IndexFile P) : Appended f f 0 := ⟨rfl, List.Perm.refl _⟩

theorem Appended.trans (h : Appended f f' k) (h' : Appended f' f'' m) :
    Appended f f'' (k + m) := by
  refine ⟨?_, ?_⟩
  · rw [h'.length, h.length, Nat.add_assoc]
  · have hrange : List.range' f.blocks.length (k + m) =
        List.range' f.blocks.length k ++ List.range' f'.blocks.length m := by
      rw [h.length, List.range'_append_1]
    have hpins := h'.pins.trans (h.pins.append_left _)
    rw [hrange, List.append_assoc]
    refine hpins.trans ?_
    rw [← List.append_assoc, ← List.append_assoc]
    exact List.perm_append_comm.append_right _

theorem appended_put (f : IndexFile P) (blk : ℕ) (c : Contents P) :
    Appended f (f.put blk c) 0 :=
  ⟨List.length_set, List.Perm.refl _⟩

theorem frame_put (f : IndexFile P) (blk : ℕ) (c : Contents P) : Frame blk f (f.put blk c) :=
  fun _ _ hne h => (List.getElem?_set_ne hne.symm).trans h

theorem Frame.trans (h : Frame blk f f') (h' : Frame blk f' f'') : Frame blk f f'' :=
  fun b c hne hb => h' b c hne (h b c hne hb)

/-- The pins of the file are the same up to their order exactly when no block is new. -/
theorem Appended.pins_iff (h : Appended f f' k) : f'.pins.Perm f.pins ↔ k = 0 := by
  constructor
  · intro hperm
    have hlen := hperm.length_eq
    rw [h.pins.length_eq, List.length_append, List.length_range'] at hlen
    omega
  · intro hk
    subst hk
    exact h.pins

/-- A block that is opened and closed around an operation keeps no pin. -/
theorem Appended.unpin (h : Appended (f.pin blk) f' k) : Appended f (f'.unpin blk) k := by
  refine ⟨h.length, ?_⟩
  have herase := h.pins.erase blk
  have hmiddle : (List.range' f.blocks.length k ++ blk :: f.pins).Perm
      (blk :: (List.range' f.blocks.length k ++ f.pins)) := List.perm_middle
  exact herase.trans ((hmiddle.erase blk).trans (by rw [List.erase_cons_head]))

theorem contents_ok (h : f.contents blk = .ok c) : blk ∈ f.pins ∧ f.blocks[blk]? = some c := by
  unfold IndexFile.contents at h
  by_cases hpin : blk ∈ f.pins
  · rw [if_pos hpin] at h
    cases hblk : f.blocks[blk]? with
    | none =>
      rw [hblk] at h
      cases h
    | some c' =>
      rw [hblk] at h
      cases h
      exact ⟨hpin, rfl⟩
  · rw [if_neg hpin] at h
    cases h

theorem setFlag_put {val : ℤ} (h : f.setFlag blk val = .ok f') : ∃ c, f' = f.put blk c := by
  obtain ⟨c, -, hput⟩ := bind_eq_ok.mp h
  cases hput
  exact ⟨_, rfl⟩

theorem setFlag_appended {val : ℤ} (h : f.setFlag blk val = .ok f') : Appended f f' 0 := by
  obtain ⟨c, rfl⟩ := setFlag_put h
  exact appended_put f blk c

variable [Inhabited P]

theorem appendNew_ok {flag : ℤ} (h : f.appendNew L B flag = .ok (n, f')) :
    n = f.blocks.length ∧ ∃ c, f' = ⟨f.blocks ++ [c], f.blocks.length :: f.pins⟩ := by
  obtain ⟨c, hc, hnew⟩ := bind_eq_ok.mp h
  cases hnew
  refine ⟨rfl, c.format L flag, ?_⟩
  have hset : (f.blocks ++ [Contents.zero L B]).set f.blocks.length (c.format L flag) =
      f.blocks ++ [c.format L flag] := by
    rw [List.set_append_right _ _ (Nat.le_refl _), Nat.sub_self]
    rfl
  unfold IndexFile.put IndexFile.append IndexFile.pin
  dsimp only
  rw [hset]

/-- Dividing a page appends one block. -/
theorem split_ok {splitPos flag : ℤ} (h : f.split L B blk splitPos flag = .ok (n, f')) :
    n = f.blocks.length ∧ f'.pins = f.blocks.length :: f.pins ∧ Appended f f' 1 ∧
      Frame blk f f' := by
  obtain ⟨⟨newBlk, f₁⟩, hnew, hrest⟩ := bind_eq_ok.mp h
  obtain ⟨f₂, htransfer, hrest⟩ := bind_eq_ok.mp hrest
  obtain ⟨f₃, hflag, hend⟩ := bind_eq_ok.mp hrest
  cases hend
  obtain ⟨rfl, c, rfl⟩ := appendNew_ok hnew
  obtain ⟨d, rfl⟩ := setFlag_put hflag
  obtain ⟨source, -, htransfer⟩ := bind_eq_ok.mp htransfer
  obtain ⟨target, -, htransfer⟩ := bind_eq_ok.mp htransfer
  obtain ⟨⟨source', target'⟩, -, hput⟩ := bind_eq_ok.mp htransfer
  cases hput
  have hpins : (f.blocks.length :: f.blocks.length :: f.pins).erase f.blocks.length =
      f.blocks.length :: f.pins := List.erase_cons_head _ _
  refine ⟨rfl, hpins, ⟨?_, ?_⟩, ?_⟩
  · show (((((f.blocks ++ [c]).set blk source').set f.blocks.length target').set
      f.blocks.length d)).length = _
    rw [List.length_set, List.length_set, List.length_set, List.length_append,
      List.length_singleton]
  · show ((f.blocks.length :: f.blocks.length :: f.pins).erase f.blocks.length).Perm _
    rw [hpins]
    exact List.Perm.refl _
  · intro b x hne hb
    have hlt : b < f.blocks.length := (List.getElem?_eq_some_iff.mp hb).1
    show ((((f.blocks ++ [c]).set blk source').set f.blocks.length target').set
      f.blocks.length d)[b]? = some x
    rw [List.getElem?_set_ne hlt.ne', List.getElem?_set_ne hlt.ne', List.getElem?_set_ne hne.symm,
      List.getElem?_append_left hlt]
    exact hb

end Files

section Directories

variable {L : Layout} {B : BlockSize} {f f' : IndexFile ℕ} {dir dir' : BTreeDir} {e : DirEntry}
  {r : Option DirEntry} {blk : ℕ}

/-- An entry goes into the page of the directory, which is divided if it becomes full. -/
theorem insertEntry_ok (h : dir.insertEntry L B e = .ok (dir', r)) :
    dir'.contents = dir.contents ∧ Frame dir.contents dir.file dir'.file ∧
      Appended dir.file dir'.file r.toList.length := by
  obtain ⟨c, -, hrest⟩ := bind_eq_ok.mp h
  obtain ⟨slot, -, hrest⟩ := bind_eq_ok.mp hrest
  obtain ⟨c', -, hrest⟩ := bind_eq_ok.mp hrest
  by_cases hfull : c'.isFull L B = true
  · obtain ⟨splitVal, -, hrest⟩ := bind_eq_ok.mp ((if_pos hfull).symm.trans hrest)
    obtain ⟨⟨newBlk, file⟩, hsplit, hend⟩ := bind_eq_ok.mp hrest
    cases hend
    obtain ⟨-, -, happended, hframe⟩ := split_ok hsplit
    have hput := (appended_put dir.file dir.contents c').trans happended
    exact ⟨rfl, (frame_put dir.file dir.contents c').trans hframe, hput⟩
  · have hend := (if_neg hfull).symm.trans hrest
    cases hend
    exact ⟨rfl, frame_put dir.file dir.contents c', appended_put dir.file dir.contents c'⟩

end Directories

end SampleDB.FileGrowth
