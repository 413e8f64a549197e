import SampleDB.Logging

/-!
What a log block holds, and what iterating a log file gives. The records of a
block are kept newest first, as they lie in it; a file is described by the
records of its last block and those of the blocks before it, again newest first.
-/
namespace SampleDB.LogContents

open Slices Words Pages Blocks Logging

/-- A record in a log block, behind its length word. -/
def frame (r : Bytes) : Bytes := encodeInt (Int32.ofInt r.length) ++ r

def frames (rs : List Bytes) : Bytes := rs.flatMap frame

@[simp] theorem frame_length (r : Bytes) : (frame r).length = r.length + 4 := by
  simp [frame]
  omega

@[simp] theorem frames_nil : frames [] = [] := rfl

theorem frames_cons (r : Bytes) (rs : List Bytes) : frames (r :: rs) = frame r ++ frames rs := rfl

theorem frames_length_cons (r : Bytes) (rs : List Bytes) :
    (frames (r :: rs)).length = r.length + 4 + (frames rs).length := by
  rw [frames_cons, List.length_append, frame_length]

/-- The page is a log block with these records, the newest first. -/
structure BlockHolds (B : BlockSize) (p : Page) (rs : List Bytes) : Prop where
  size : p.length = B.bytes
  room : 4 + (frames rs).length ≤ B.bytes
  boundary : p.getInt 0 = .ok (Int32.ofInt ((B.bytes : ℤ) - (frames rs).length))
  tail : p.drop (B.bytes - (frames rs).length) = frames rs

theorem BlockHolds.boundary_toInt {B : BlockSize} {p : Page} {rs : List Bytes}
    (h : BlockHolds B p rs) :
    (Int32.ofInt ((B.bytes : ℤ) - (frames rs).length)).toInt = B.bytes - (frames rs).length := by
  have hB := B.lt_int
  have hroom := h.room
  exact toInt_eq _ (by omega) (by omega)

/-- Writing the block size as the boundary word empties a block. -/
theorem setInt_blockHolds_nil (B : BlockSize) (p : Page) (h : p.length = B.bytes) :
    ∃ q, p.setInt 0 (Int32.ofInt B.bytes) = .ok q ∧ BlockHolds B q [] := by
  have hB := B.word_le
  refine ⟨_, Page.setInt_ok p 0 _ (by omega) (by omega) (by omega), ?_⟩
  have hlen := splice_length p 0 (encodeInt (Int32.ofInt B.bytes))
    (by rw [encodeInt_length]; omega)
  constructor
  · exact hlen.trans h
  · simpa using hB
  · rw [Int.toNat_zero, Page.getInt_ok _ 0 (by omega) (by omega) (by omega)]
    have hs := slice_splice_self p 0 (encodeInt (Int32.ofInt B.bytes))
      (by rw [encodeInt_length]; omega)
    rw [encodeInt_length] at hs
    simp [hs]
  · simp only [frames_nil, List.length_nil, Nat.sub_zero]
    exact List.drop_eq_nil_of_le (by rw [Int.toNat_zero]; omega)

/-- Packing a record in front of the others, then moving the boundary. -/
theorem pack_blockHolds (B : BlockSize) (p : Page) (r : Bytes) (rs : List Bytes) (pos : ℤ)
    (h : BlockHolds B p rs) (hfit : 4 + (frames (r :: rs)).length ≤ B.bytes)
    (hpos : pos = B.bytes - (frames (r :: rs)).length) :
    ∃ q q', p.setBytes pos r = .ok q ∧ q.setInt 0 (Int32.ofInt pos) = .ok q' ∧
      BlockHolds B q' (r :: rs) := by
  have hB := B.lt_int
  have hsize := h.size
  have hcons := frames_length_cons r rs
  have hset := Page.setBytes_ok p pos r (by omega) (by omega) (by omega)
  change p.setBytes pos r = .ok (splice p pos.toNat (frame r)) at hset
  have hlen := splice_length p pos.toNat (frame r) (by rw [frame_length]; omega)
  have hset' := Page.setInt_ok (splice p pos.toNat (frame r)) 0 (Int32.ofInt pos) (by omega)
    (by omega) (by omega)
  have hlen' := splice_length (splice p pos.toNat (frame r)) 0 (encodeInt (Int32.ofInt pos))
    (by rw [encodeInt_length]; omega)
  refine ⟨_, _, hset, hset', ?_⟩
  constructor
  · exact (hlen'.trans hlen).trans hsize
  · exact hfit
  · rw [Int.toNat_zero, Page.getInt_ok _ 0 (by omega) (by omega) (by omega)]
    have hs := slice_splice_self (splice p pos.toNat (frame r)) 0 (encodeInt (Int32.ofInt pos))
      (by rw [encodeInt_length]; omega)
    rw [encodeInt_length] at hs
    rw [Int.toNat_zero, hs, decodeInt_encodeInt, ← hpos]
  · rw [Int.toNat_zero, drop_splice_of_le _ 0 _ _ (by rw [encodeInt_length]; omega)
      (by rw [encodeInt_length]; omega),
      show B.bytes - (frames (r :: rs)).length = pos.toNat by omega,
      drop_splice p _ _ (by rw [frame_length]; omega), frames_cons, frame_length]
    congr 1
    rw [show pos.toNat + (r.length + 4) = B.bytes - (frames rs).length by omega]
    exact h.tail

/-- Reading at the position of a record gives it, and leaves those behind it. -/
theorem getBytes_frames (B : BlockSize) (p : Page) (r : Bytes) (rs : List Bytes)
    (hsize : p.length = B.bytes) (hroom : (frames (r :: rs)).length ≤ B.bytes)
    (htail : p.drop (B.bytes - (frames (r :: rs)).length) = frames (r :: rs)) :
    p.getBytes ((B.bytes : ℤ) - (frames (r :: rs)).length) = .ok r ∧
      p.drop (B.bytes - (frames rs).length) = frames rs := by
  have hB := B.lt_int
  have hcons := frames_length_cons r rs
  constructor
  · apply Page.getBytes_ok p _ r (by omega) (by omega) (by omega)
    · rw [show ((B.bytes : ℤ) - (frames (r :: rs)).length).toNat =
        B.bytes - (frames (r :: rs)).length by omega]
      unfold slice
      rw [htail, frames_cons, frame, List.append_assoc,
        List.take_left' (encodeInt_length _)]
    · rw [show ((B.bytes : ℤ) - (frames (r :: rs)).length + 4).toNat =
        B.bytes - (frames (r :: rs)).length + 4 by omega]
      unfold slice
      rw [← List.drop_drop, htail, frames_cons, frame, List.append_assoc,
        List.drop_left' (encodeInt_length _), List.take_left]
  · have hdrop := congrArg (List.drop (frame r).length) htail
    rw [frames_cons, List.drop_left, List.drop_drop, ← frames_cons, frame_length] at hdrop
    rwa [show B.bytes - (frames (r :: rs)).length + (r.length + 4) =
      B.bytes - (frames rs).length by omega] at hdrop

/-- The blocks before the last one, the newest first; each of them holds a record. -/
def OlderHold (B : BlockSize) (f : File) : List (List Bytes) → Prop
  | [] => True
  | rs :: older => rs ≠ [] ∧ BlockHolds B (f.read B older.length) rs ∧ OlderHold B f older

theorem OlderHold.congr {B : BlockSize} {f g : File} {older : List (List Bytes)}
    (h : OlderHold B f older) (heq : ∀ i < older.length, g.read B i = f.read B i) :
    OlderHold B g older := by
  induction older with
  | nil => trivial
  | cons rs older ih =>
    obtain ⟨hne, hblock, hrest⟩ := h
    refine ⟨hne, ?_, ih hrest (fun i hi => heq i (by simp only [List.length_cons]; omega))⟩
    rw [heq older.length (by simp)]
    exact hblock

/-- A log file with the records `saved` in its last block and `older` before it. -/
structure FileHolds (B : BlockSize) (f : File) (saved : List Bytes)
    (older : List (List Bytes)) : Prop where
  length : f.length B = older.length + 1
  older_hold : OlderHold B f older
  last_holds : BlockHolds B (f.read B older.length) saved

theorem next_inside (B : BlockSize) (f : File) (p : Page) (blk pos pos' : ℤ) (r : Bytes)
    (hpos : pos ≠ B.bytes) (hget : p.getBytes pos = .ok r) (hpos' : pos' = pos + (4 + r.length)) :
    LogIterator.next B f ⟨p, blk, pos⟩ = .ok (r, ⟨p, blk, pos'⟩) := by
  unfold LogIterator.next
  rw [if_neg hpos, hpos']
  simp only [ok_bind, hget]

theorem next_cross (B : BlockSize) (f : File) (p : Page) (blk blk' pos' : ℤ) (w : Int32)
    (r : Bytes) (hblk : blk - 1 = blk') (hword : (f.read B blk').getInt 0 = .ok w)
    (hget : (f.read B blk').getBytes w.toInt = .ok r) (hpos' : pos' = w.toInt + (4 + r.length)) :
    LogIterator.next B f ⟨p, blk, B.bytes⟩ = .ok (r, ⟨f.read B blk', blk', pos'⟩) := by
  unfold LogIterator.next LogIterator.moveToBlock
  rw [if_pos rfl, hblk, hpos']
  simp only [ok_bind, hword, hget]

/-- From any position in a block the iterator gives the rest of the block, then the
blocks before it. The induction is on the blocks, and inside one on its records. -/
theorem yields_from (B : BlockSize) (f : File) (older : List (List Bytes))
    (holder : OlderHold B f older) (p : Page) (hsize : p.length = B.bytes) (rs : List Bytes)
    (hroom : (frames rs).length ≤ B.bytes)
    (htail : p.drop (B.bytes - (frames rs).length) = frames rs) :
    LogIterator.Yields B f ⟨p, older.length, B.bytes - (frames rs).length⟩
      (rs ++ older.flatten) := by
  induction older generalizing p rs with
  | nil =>
    induction rs with
    | nil => exact .done _ (by simp [LogIterator.hasNext])
    | cons r rs ih =>
      obtain ⟨hget, hrest⟩ := getBytes_frames B p r rs hsize hroom htail
      have hcons := frames_length_cons r rs
      refine .more _ ⟨p, 0, B.bytes - (frames rs).length⟩ r _ ?_ ?_ (ih (by omega) hrest)
      · simp [LogIterator.hasNext]
        omega
      · exact next_inside B f p 0 _ _ r (by omega) hget (by omega)
  | cons top older iholder =>
    obtain ⟨hne, hblock, hrest⟩ := holder
    induction rs with
    | nil =>
      obtain ⟨r, rs, rfl⟩ := List.exists_cons_of_ne_nil hne
      have hroom' := hblock.room
      have hcons := frames_length_cons r rs
      obtain ⟨hget, htail'⟩ := getBytes_frames B _ r rs hblock.size (by omega) hblock.tail
      rw [← hblock.boundary_toInt] at hget
      have hnext := next_cross B f p ((((r :: rs) :: older).length : ℕ) : ℤ) older.length
        (B.bytes - (frames rs).length) _ r (by simp only [List.length_cons]; omega)
        hblock.boundary hget (by rw [hblock.boundary_toInt]; omega)
      rw [frames_nil, List.length_nil, show (B.bytes : ℤ) - ((0 : ℕ) : ℤ) = B.bytes by omega]
      exact .more _ _ r _ (by simp [LogIterator.hasNext]) hnext
        (iholder hrest _ hblock.size rs (by omega) htail')
    | cons r rs ih =>
      obtain ⟨hget, hrest'⟩ := getBytes_frames B p r rs hsize hroom htail
      have hcons := frames_length_cons r rs
      exact .more _ _ r _ (by simp [LogIterator.hasNext])
        (next_inside B f p _ _ (B.bytes - (frames rs).length) r (by omega) hget (by omega))
        (ih (by omega) hrest')

/-- An iterator placed on the last block gives all records of the file, newest first. -/
theorem FileHolds.yields {B : BlockSize} {f : File} {saved : List Bytes}
    {older : List (List Bytes)} (h : FileHolds B f saved older) :
    ∃ it, LogIterator.moveToBlock B f older.length = .ok it ∧
      LogIterator.Yields B f it (saved ++ older.flatten) := by
  have hroom := h.last_holds.room
  refine ⟨⟨f.read B older.length, older.length, B.bytes - (frames saved).length⟩, ?_, ?_⟩
  · unfold LogIterator.moveToBlock
    simp only [h.last_holds.boundary, ok_bind, h.last_holds.boundary_toInt]
  · exact yields_from B f older h.older_hold _ h.last_holds.size saved (by omega)
      h.last_holds.tail

/-- Writing the last block of a log file. -/
theorem FileHolds.write {B : BlockSize} {f : File} {saved : List Bytes}
    {older : List (List Bytes)} (h : FileHolds B f saved older) (p : Page) (rs : List Bytes)
    (hp : BlockHolds B p rs) : FileHolds B (f.write older.length p) rs older := by
  have hlen := h.length
  constructor
  · rw [File.length_write B f _ p (by omega), hlen]
  · apply h.older_hold.congr
    intro i hi
    exact File.read_write_ne B f _ i p (by omega) (by omega)
  · rw [File.read_write_self B f _ p (by omega)]
    exact hp

/-- Behind a last block that is not empty a new one can be opened, whatever it holds. -/
theorem FileHolds.older_extend {B : BlockSize} {f : File} {saved : List Bytes}
    {older : List (List Bytes)} (h : FileHolds B f saved older) (hne : saved ≠ []) (p : Page) :
    OlderHold B (f.append.write (older.length + 1) p) (saved :: older) := by
  have hlen := h.length
  have hlen' : f.append.length B = older.length + 2 := by
    rw [File.length_append]
    omega
  have hread : ∀ i < older.length + 1,
      (f.append.write (older.length + 1) p).read B i = f.read B i := by
    intro i hi
    rw [File.read_write_ne B _ _ i p (by omega) (by omega), File.read_append B f i (by omega)]
  refine ⟨hne, ?_, ?_⟩
  · rw [hread older.length (by omega)]
    exact h.last_holds
  · apply h.older_hold.congr
    intro i hi
    exact hread i (by omega)

theorem FileHolds.extend {B : BlockSize} {f : File} {saved : List Bytes}
    {older : List (List Bytes)} (h : FileHolds B f saved older) (hne : saved ≠ [])
    (p : Page) (hp : BlockHolds B p []) :
    FileHolds B (f.append.write (older.length + 1) p) [] (saved :: older) := by
  have hlen := h.length
  have hlen' : f.append.length B = older.length + 2 := by
    rw [File.length_append]
    omega
  constructor
  · rw [File.length_write B _ _ p (by omega), hlen']
    rfl
  · exact h.older_extend hne p
  · rw [List.length_cons, File.read_write_self B _ _ p (by omega)]
    exact hp

end SampleDB.LogContents
