import SampleDB.AloneDatabase

/-!
The locks of a database among others and by itself. A request that meets no lock of another
database has the same answer in both, and a request or a release of another database changes
nothing for it.
-/
namespace SampleDB.DatabaseLocks

open Lexer Schemas SharedLocks Programs TwoDatabases AloneDatabase
open Locking (LockType)
open Directory (FileName)

section Entries

variable {own other : Entries} {shared alone : ℤ} {F : Type}
  {maps : List (BlockId F → Option LockType)} {locks : BlockId F → Option LockType} {i : ℕ}

theorem count_append_none (own : Entries) : Entries.count (own ++ [none]) = own.count := by
  unfold Entries.count
  rw [List.countP_append]
  rfl

theorem shared_append_none (h : own.Shared) : Entries.Shared (own ++ [none]) := by
  intro hmem
  rcases List.mem_append.mp hmem with hold | hnew
  · exact h hold
  · cases List.mem_singleton.mp hnew

theorem eq_replicate (h : own.count = 0) : own = List.replicate own.length none := by
  apply List.eq_replicate_iff.mpr
  refine ⟨rfl, fun l hl => ?_⟩
  cases l with
  | none => rfl
  | some t =>
    have hpos : 0 < own.count := List.countP_pos_iff.mpr ⟨some t, hl, rfl⟩
    omega

theorem count_set_none (h : own.count = 0) : Entries.count (own.set i none) = 0 := by
  unfold Entries.count at *
  rw [List.countP_eq_zero] at *
  intro l hl
  rcases List.mem_or_eq_of_mem_set hl with hold | rfl
  · exact h l hold
  · exact Bool.false_ne_true

theorem append_own (h : Agree shared alone own other) :
    Agree shared alone (own ++ [none]) other := by
  refine ⟨h.same, fun hne => ?_⟩
  rw [count_append_none]
  exact (h.counted hne).imp_right (And.imp_left shared_append_none)

theorem entriesAt_append (maps : List (BlockId F → Option LockType)) (blk : BlockId F) :
    entriesAt (maps ++ [fun _ => none]) blk = entriesAt maps blk ++ [none] := List.map_append

theorem getElem?_entriesAt (hi : maps[i]? = some locks) (blk : BlockId F) :
    (entriesAt maps blk)[i]? = some (locks blk) := by
  unfold entriesAt
  rw [List.getElem?_map, hi]
  rfl

theorem entriesAt_set (maps : List (BlockId F → Option LockType)) (i : ℕ)
    (locks : BlockId F → Option LockType) (blk : BlockId F) :
    entriesAt (maps.set i locks) blk = (entriesAt maps blk).set i (locks blk) := List.map_set

variable [DecidableEq F]

theorem entriesAt_update_self (maps : List (BlockId F → Option LockType)) (i : ℕ)
    (locks : BlockId F → Option LockType) (blk : BlockId F) (l : Option LockType) :
    entriesAt (maps.set i (Function.update locks blk l)) blk = (entriesAt maps blk).set i l := by
  rw [entriesAt_set, Function.update_self]

/-- The entries for the other blocks stay. -/
theorem entriesAt_update_ne (hi : maps[i]? = some locks) {blk blk' : BlockId F} (h : blk' ≠ blk)
    (l : Option LockType) :
    entriesAt (maps.set i (Function.update locks blk l)) blk' = entriesAt maps blk' := by
  rw [entriesAt_set, Function.update_of_ne h]
  exact set_self (getElem?_entriesAt hi blk')

end Entries

/-- The locks of a database among others, and of the database by itself. -/
structure Locked (temps : List ℕ) (table : BlockId FileName → ℤ)
    (own others : List (BlockId FileName → Option LockType))
    (table' : BlockId FileRef → ℤ) (own' : List (BlockId FileRef → Option LockType)) : Prop where
  entries : ∀ blk, Known temps.length blk.file →
    entriesAt own (named temps blk) = entriesAt own' blk
  agree : ∀ blk, Known temps.length blk.file → Agree (table (named temps blk)) (table' blk)
    (entriesAt own (named temps blk)) (entriesAt others (named temps blk))
  bounded : ∀ blk, Bounded (table blk) ((entriesAt own blk).count + (entriesAt others blk).count)
  bounded' : ∀ blk, Bounded (table' blk) (entriesAt own' blk).count
  unused : ∀ m, m ∉ temps → ∀ k, (entriesAt own ⟨tempFile m, k⟩).count = 0
  unnamed : ∀ i, temps.length ≤ i → ∀ k, (entriesAt own' ⟨.temp i, k⟩).count = 0

section Locks

variable {temps : List ℕ} {table : BlockId FileName → ℤ}
  {own others : List (BlockId FileName → Option LockType)}
  {table' : BlockId FileRef → ℤ} {own' : List (BlockId FileRef → Option LockType)}
  {i m : ℕ} {locks : BlockId FileName → Option LockType}
  {locks' : BlockId FileRef → Option LockType} {t : LockType}

/-- A transaction has the same entries in both. -/
theorem Locked.locks_eq (h : Locked temps table own others table' own') (hi : own[i]? = some locks)
    (hi' : own'[i]? = some locks') {blk : BlockId FileRef} (hknown : Known temps.length blk.file) :
    locks (named temps blk) = locks' blk := by
  have hleft := getElem?_entriesAt hi (named temps blk)
  rw [h.entries blk hknown, getElem?_entriesAt hi'] at hleft
  exact (Option.some.inj hleft).symm

/-- The state of one block is changed in both. -/
theorem Locked.update (h : Locked temps table own others table' own') (hnodup : temps.Nodup)
    (hi : own[i]? = some locks) (hi' : own'[i]? = some locks') {blk : BlockId FileRef}
    (hknown : Known temps.length blk.file) {value value' : ℤ} {l : Option LockType}
    (hagree : Agree value value' ((entriesAt own (named temps blk)).set i l)
      (entriesAt others (named temps blk)))
    (hbound : Bounded value (Entries.count ((entriesAt own (named temps blk)).set i l) +
      (entriesAt others (named temps blk)).count))
    (hbound' : Bounded value' (Entries.count ((entriesAt own' blk).set i l))) :
    Locked temps (Function.update table (named temps blk) value)
      (own.set i (Function.update locks (named temps blk) l)) others
      (Function.update table' blk value') (own'.set i (Function.update locks' blk l)) := by
  have hname : ∀ blk', Known temps.length blk'.file → blk' ≠ blk →
      named temps blk' ≠ named temps blk :=
    fun blk' h' hne heq => hne (named_inj hnodup h' hknown heq)
  refine ⟨fun blk' h' => ?_, fun blk' h' => ?_, fun blk' => ?_, fun blk' => ?_, fun m hm k => ?_,
    fun j hj k => ?_⟩
  · by_cases heq : blk' = blk
    · subst heq
      rw [entriesAt_update_self, entriesAt_update_self, h.entries _ h']
    · rw [entriesAt_update_ne hi (hname blk' h' heq), entriesAt_update_ne hi' heq, h.entries _ h']
  · by_cases heq : blk' = blk
    · subst heq
      rw [entriesAt_update_self, Function.update_self, Function.update_self]
      exact hagree
    · rw [entriesAt_update_ne hi (hname blk' h' heq), Function.update_of_ne (hname blk' h' heq),
        Function.update_of_ne heq]
      exact h.agree blk' h'
  · by_cases heq : blk' = named temps blk
    · subst heq
      rw [entriesAt_update_self, Function.update_self]
      exact hbound
    · rw [entriesAt_update_ne hi heq, Function.update_of_ne heq]
      exact h.bounded blk'
  · by_cases heq : blk' = blk
    · subst heq
      rw [entriesAt_update_self, Function.update_self]
      exact hbound'
    · rw [entriesAt_update_ne hi' heq, Function.update_of_ne heq]
      exact h.bounded' blk'
  · have hne : (⟨tempFile m, k⟩ : BlockId FileName) ≠ named temps blk :=
      fun heq => fileName_ne hknown hm (congrArg BlockId.file heq).symm
    rw [entriesAt_update_ne hi hne]
    exact h.unused m hm k
  · have hne : (⟨.temp j, k⟩ : BlockId FileRef) ≠ blk := by
      rintro rfl
      exact absurd hknown (Nat.not_lt.mpr hj)
    rw [entriesAt_update_ne hi' hne]
    exact h.unnamed j hj k

/-- A request of the database has the answer that it has by itself. -/
theorem Locked.request (h : Locked temps table own others table' own') (hnodup : temps.Nodup)
    (hi : own[i]? = some locks) (hi' : own'[i]? = some locks') {blk : BlockId FileRef}
    (hknown : Known temps.length blk.file)
    (hapart : Apart t ⟨table (named temps blk), locks (named temps blk)⟩
      (entriesAt own (named temps blk)) (entriesAt others (named temps blk))) :
    (Cell.request t ⟨table (named temps blk), locks (named temps blk)⟩).2 =
        (Cell.request t ⟨table' blk, locks' blk⟩).2 ∧
      Locked temps
        (Function.update table (named temps blk)
          (Cell.request t ⟨table (named temps blk), locks (named temps blk)⟩).1.value)
        (own.set i (Function.update locks (named temps blk)
          (Cell.request t ⟨table (named temps blk), locks (named temps blk)⟩).1.entry)) others
        (Function.update table' blk (Cell.request t ⟨table' blk, locks' blk⟩).1.value)
        (own'.set i (Function.update locks' blk
          (Cell.request t ⟨table' blk, locks' blk⟩).1.entry)) := by
  have hentry := getElem?_entriesAt hi (named temps blk)
  have hentry' := getElem?_entriesAt hi' blk
  have halone := h.bounded' blk
  rw [← h.entries blk hknown] at halone
  obtain ⟨hsame, hflag, hagree⟩ := (h.agree blk hknown).request halone hentry hapart
  have hbound := @Bounded.request _ _ _ _ _ t (h.bounded (named temps blk)) hentry
  have hbound' := @Bounded.request _ _ _ 0 _ t (h.bounded' blk) hentry'
  rw [h.locks_eq hi hi' hknown] at hsame hflag hagree hbound ⊢
  rw [← hsame] at hbound' ⊢
  exact ⟨hflag, h.update hnodup hi hi' hknown hagree hbound hbound'⟩

theorem Locked.release (h : Locked temps table own others table' own')
    (hi : own[i]? = some locks) (hi' : own'[i]? = some locks') :
    Locked temps (unlockAll table locks) (own.set i (fun _ => none)) others
      (unlockAll table' locks') (own'.set i (fun _ => none)) := by
  refine ⟨fun blk h' => ?_, fun blk h' => ?_, fun blk => ?_, fun blk => ?_, fun m hm k => ?_,
    fun j hj k => ?_⟩
  · rw [entriesAt_set, entriesAt_set, h.entries blk h']
  · rw [entriesAt_set]
    unfold unlockAll
    have hagree := (h.agree blk h').release (getElem?_entriesAt hi _)
    rw [← h.locks_eq hi hi' h']
    exact hagree
  · rw [entriesAt_set]
    exact (h.bounded blk).release (getElem?_entriesAt hi blk)
  · rw [entriesAt_set]
    exact @Bounded.release _ _ _ 0 _ (h.bounded' blk) (getElem?_entriesAt hi' blk)
  · rw [entriesAt_set]
    exact count_set_none (h.unused m hm k)
  · rw [entriesAt_set]
    exact count_set_none (h.unnamed j hj k)

/-- A further transaction of the database. -/
theorem Locked.begin (h : Locked temps table own others table' own') :
    Locked temps table (own ++ [fun _ => none]) others table' (own' ++ [fun _ => none]) := by
  refine ⟨fun blk h' => ?_, fun blk h' => ?_, fun blk => ?_, fun blk => ?_, fun m hm k => ?_,
    fun j hj k => ?_⟩
  · rw [entriesAt_append, entriesAt_append, h.entries blk h']
  · rw [entriesAt_append]
    exact append_own (h.agree blk h')
  · rw [entriesAt_append, count_append_none]
    exact h.bounded blk
  · rw [entriesAt_append, count_append_none]
    exact h.bounded' blk
  · rw [entriesAt_append, count_append_none]
    exact h.unused m hm k
  · rw [entriesAt_append, count_append_none]
    exact h.unnamed j hj k

/-- No value without an entry. -/
theorem Bounded.eq_zero {value : ℤ} (h : Bounded value 0) : value = 0 :=
  Int.le_antisymm h.1 (h.2 rfl)

/-- A further temporary table of the database, whose file is locked by none of its
transactions. -/
theorem Locked.newTemp (h : Locked temps table own others table' own')
    (hlength : own.length = own'.length) (hm : m ∉ temps) :
    Locked (temps ++ [m]) table own others table' own' := by
  have hnamed : ∀ blk : BlockId FileRef, Known temps.length blk.file →
      named (temps ++ [m]) blk = named temps blk := by
    intro blk hknown
    unfold named
    rw [fileName_append hknown]
  have hlast : ∀ k, named (temps ++ [m]) ⟨.temp temps.length, k⟩ = ⟨tempFile m, k⟩ := by
    intro k
    unfold named
    rw [fileName_last]
  refine ⟨fun blk h' => ?_, fun blk h' => ?_, h.bounded, h.bounded', fun m' hm' => ?_,
    fun j hj => ?_⟩
  · obtain ⟨ref, k⟩ := blk
    rcases h'.append with hold | rfl
    · rw [hnamed _ hold]
      exact h.entries _ hold
    · rw [hlast, eq_replicate (h.unused m hm k), eq_replicate (h.unnamed _ (Nat.le_refl _) k)]
      unfold entriesAt
      rw [List.length_map, List.length_map, hlength]
  · obtain ⟨ref, k⟩ := blk
    rcases h'.append with hold | rfl
    · rw [hnamed _ hold]
      exact h.agree _ hold
    · have hown := h.unused m hm k
      have hown' := h.unnamed _ (Nat.le_refl _) k
      rw [hlast]
      refine ⟨fun hzero => ?_, fun _ => Or.inl hown⟩
      have hbound := h.bounded ⟨tempFile m, k⟩
      have hbound' := h.bounded' ⟨.temp temps.length, k⟩
      rw [hown, hzero] at hbound
      rw [hown'] at hbound'
      rw [Bounded.eq_zero hbound, Bounded.eq_zero hbound']
  · exact h.unused m' (fun hin => hm' (List.mem_append_left _ hin))
  · rw [List.length_append] at hj
    exact h.unnamed j (by omega)

end Locks

end SampleDB.DatabaseLocks
