import SampleDB.IndexCells

/-!
What the writes of an index page do to the contents that it stands for. A record is written field
by field; then the slot holds it, and the other slots hold what they held. So copying, inserting
and removing do on bytes what they do on records.
-/
namespace SampleDB.IndexSteps

open Words Pages Blocks Lexer Schemas Rollback Endings PageValues RecordPages StoredRecords
open PageWrites IndexPages IndexCells

section Fields

variable {B : BlockSize} {layout : Layout} {L : BTreePages.Layout} {base : Transaction}
  {blk j : ℕ} {p q : Page} {w : Name → Value}

/-- The fields of a slot are written one after another. What a step does depends only on cells of
its own field, which the steps before it have left alone. -/
theorem writeFields (okToLog : Bool) (h : IndexLayout layout L) (hB : 8 ≤ B.bytes)
    (hblk : blk < base.blocks.length) (hj : j < BTreePages.capacity B L)
    {g : Transaction → Name → Result Transaction} {fs : List Name}
    (hfs : ∀ f ∈ fs, f ∈ layout.schema.fields) (hnodup : fs.Nodup)
    (hw : ∀ f ∈ fs, (w f).size ≤ widthOf layout.schema f) (hp : p.length = B.bytes)
    (hg : ∀ f ∈ fs, ∀ q log, (∀ i, i < BTreePages.capacity B L →
      KeptCell B layout base.fileName p q (.field i f)) → g (withPage base blk log q) f =
        (withPage base blk log q).set B blk ((PageCell.field j f).pos layout) (w f) okToLog)
    (hlogs : okToLog = true → ∀ f ∈ fs,
      CanLog B base.fileName p ((PageCell.field j f).pos layout) (kind (w f))) :
    Takes B base blk (fun tx => fs.foldlM g tx) p (fun q => q.length = B.bytes ∧
      (∀ f ∈ fs, HoldsCell layout q (.field j f) (w f)) ∧
        ∀ c : PageCell, c.Of B layout L → (∀ f ∈ fs, c ≠ .field j f) →
          KeptCell B layout base.fileName p q c) := by
  induction fs generalizing p with
  | nil =>
    exact .skip ⟨hp, (fun f hf => by cases hf), fun c _ _ => .refl p c⟩
  | cons f fs ih =>
    have hf : (PageCell.field j f).Of B layout L := ⟨hj, hfs f List.mem_cons_self⟩
    have hnew : ∀ f' ∈ fs, f' ≠ f := fun f' hf' heq =>
      (List.nodup_cons.mp hnodup).1 (heq ▸ hf')
    have hstep := Takes.cell okToLog (h.places hB) hblk hp hf
      (hw f List.mem_cons_self) (fun hlog => hlogs hlog f List.mem_cons_self)
    have hfirst : Takes B base blk (fun tx => g tx f) p _ :=
      hstep.of_eq (fun log => hg f List.mem_cons_self p log (fun i _ => .refl p _))
    refine hfirst.seq (g := fun tx => fs.foldlM g tx) ?_
    rintro q ⟨hq, hself, hkept⟩
    have hother : ∀ i, i < BTreePages.capacity B L → ∀ f' ∈ fs,
        KeptCell B layout base.fileName p q (.field i f') := fun i hi f' hf' =>
      hkept _ ⟨hi, hfs f' (List.mem_cons_of_mem f hf')⟩
        (fun heq => hnew f' hf' (PageCell.field.inj heq).2)
    have hrest := ih (p := q) (fun f' hf' => hfs f' (List.mem_cons_of_mem f hf'))
      (List.nodup_cons.mp hnodup).2 (fun f' hf' => hw f' (List.mem_cons_of_mem f hf')) hq
      (fun f' hf' r log hr => hg f' (List.mem_cons_of_mem f hf') r log
        (fun i hi => (hother i hi f' hf').trans (hr i hi)))
      (fun hlog f' hf' => ((hother j hj f' hf').logs _).mp
        (hlogs hlog f' (List.mem_cons_of_mem f hf')))
    refine hrest.mono ?_
    rintro r ⟨hr, hfields, hcells⟩
    refine ⟨hr, ?_, ?_⟩
    · intro f' hf'
      cases hf' with
      | head => exact (hcells _ hf (fun f' hf' heq =>
          hnew f' hf' (PageCell.field.inj heq).2.symm)).holds _ hself
      | tail _ hf' => exact hfields f' hf'
    · intro c hc hne
      have hc' := hkept c hc (hne f List.mem_cons_self)
      exact hc'.trans (hcells c hc (fun f' hf' => hne f' (List.mem_cons_of_mem f hf')))

end Fields

section Records

variable {B : BlockSize} {layout : Layout} {L : BTreePages.Layout} {P : Type}
  {view : P → Name → Value} {base : Transaction} {blk i j k : ℕ} {p q : Page}
  {c c' : BTreePages.Contents P} {r : BTreePages.Record P} {f : Name}

/-- The fields of a slot get the values of a record, in any order. -/
theorem setRecord_takes (h : IndexLayout layout L) (hview : ∀ d f, kind (view d f) = .int)
    (hB : 8 ≤ B.bytes) (hblk : blk < base.blocks.length)
    (hrep : Represents B layout view L p c) {v : Value} {d : P}
    (hc : c.setRecord L j v d = .ok c') (hready : Ready B layout base.fileName p j)
    {g : Transaction → Name → Result Transaction} {fs : List Name} (hnodup : fs.Nodup)
    (hfs : ∀ f, f ∈ fs ↔ f ∈ layout.schema.fields)
    (hg : ∀ f ∈ fs, ∀ q log, (∀ i, i < BTreePages.capacity B L →
      KeptCell B layout base.fileName p q (.field i f)) → g (withPage base blk log q) f =
        (withPage base blk log q).set B blk ((PageCell.field j f).pos layout)
          (valueOf view ⟨v, d⟩ f) true) :
    Takes B base blk (fun tx => fs.foldlM g tx) p (fun q =>
      Represents B layout view L q c' ∧ SlotHolds layout view q j ⟨v, d⟩ ∧
      ∀ x : PageCell, x.Of B layout L → (∀ f ∈ layout.schema.fields, x ≠ .field j f) →
        KeptCell B layout base.fileName p q x) := by
  obtain ⟨hsuits, hj, rfl⟩ := setRecord_ok hc
  rw [hrep.room] at hj
  have hfits : ∀ f ∈ layout.schema.fields, kind (valueOf view ⟨v, d⟩ f) = fieldKind layout f ∧
      (valueOf view ⟨v, d⟩ f).size ≤ widthOf layout.schema f :=
    fun f hf => value_fits h hview hsuits hf
  have hwrite := writeFields true h hB hblk hj (fun f hf => (hfs f).mp hf) hnodup
    (fun f hf => (hfits f ((hfs f).mp hf)).2) hrep.size hg
    (fun _ f hf => by
      rw [(hfits f ((hfs f).mp hf)).1]
      exact hready f ((hfs f).mp hf))
  refine hwrite.mono ?_
  rintro q ⟨hq, hfields, hkept⟩
  have hnew : SlotHolds layout view q j ⟨v, d⟩ :=
    fun f hf => ⟨(hfits f hf).1, hfields f ((hfs f).mpr hf)⟩
  have hothers : ∀ x : PageCell, x.Of B layout L → (∀ f ∈ layout.schema.fields, x ≠ .field j f) →
      KeptCell B layout base.fileName p q x :=
    fun x hx hne => hkept x hx (fun f hf => hne f ((hfs f).mp hf))
  exact ⟨hrep.setSlot hj hq hnew hothers, hnew, hothers⟩

/-- A record is copied into a slot whose fields can be overwritten. -/
theorem copyRecord_takes (h : IndexLayout layout L) (hview : ∀ d f, kind (view d f) = .int)
    (hB : 8 ≤ B.bytes) (hblk : blk < base.blocks.length)
    (hrep : Represents B layout view L p c) (hc : c.copyRecord L i j = .ok c')
    (hready : Ready B layout base.fileName p j) :
    Takes B base blk (fun tx => BTreePage.copyRecord B layout blk tx i j) p (fun q =>
      Represents B layout view L q c' ∧
      (Ready B layout base.fileName p i → Ready B layout base.fileName q j) ∧
      ∀ k f, (PageCell.field k f).Of B layout L → k ≠ j →
        KeptCell B layout base.fileName p q (.field k f)) := by
  unfold BTreePages.Contents.copyRecord at hc
  obtain ⟨r, hr, hset⟩ := bind_eq_ok.mp hc
  have hi := record_ok hr
  have hslot := hrep.slots i r hi
  have hilt : i < BTreePages.capacity B L := by
    rw [← hrep.room]
    exact (List.getElem?_eq_some_iff.mp hi).1
  have hcopy : ∀ f ∈ layout.schema.fields, ∀ q log, (∀ k, k < BTreePages.capacity B L →
      KeptCell B layout base.fileName p q (.field k f)) →
      BTreePage.copyField B layout blk i j (withPage base blk log q) f =
        (withPage base blk log q).set B blk ((PageCell.field j f).pos layout) (valueOf view r f)
          true := by
    intro f hf q log hkept
    obtain ⟨hkind, hholds⟩ := hslot f hf
    have hread := ((hkept i hilt).holds _ hholds).get
    rw [hkind] at hread
    unfold BTreePage.copyField
    rw [h.getValue_eq hf (contents_withPage hblk log q), hread, ok_bind, h.setValue_eq hf hkind]
  refine (setRecord_takes h hview hB hblk hrep hset hready h.nodup (fun f => Iff.rfl) hcopy).mono ?_
  rintro q ⟨hrep', hnew, hkept⟩
  refine ⟨hrep', ?_, ?_⟩
  · intro hsource
    exact hnew.ready (fun f hf => hslot.logs hsource hf)
  · intro k f hkf hne
    exact hkept _ hkf (fun g _ heq => hne (PageCell.field.inj heq).1)

/-- The first `n` slots can be overwritten. -/
def ReadyTo (B : BlockSize) (layout : Layout) (fileName : Bytes) (n : ℕ) (p : Page) : Prop :=
  ∀ i < n, Ready B layout fileName p i

theorem ReadyTo.of_kept {n : ℕ} {fileName : Bytes} (h : ReadyTo B layout fileName n p)
    (hn : n ≤ BTreePages.capacity B L) (hj : j < n → Ready B layout fileName q j)
    (hkept : ∀ k f, (PageCell.field k f).Of B layout L → k ≠ j →
      KeptCell B layout fileName p q (.field k f)) : ReadyTo B layout fileName n q := by
  intro i hi
  by_cases heq : i = j
  · subst heq
    exact hj hi
  · intro f hf
    exact ((hkept i f ⟨Nat.lt_of_lt_of_le hi hn, hf⟩ heq).logs _).mp (h i hi f hf)

/-- The loop of `insert`. It overwrites the slots behind `s`, and leaves the others alone. -/
theorem shiftUp_takes (h : IndexLayout layout L) (hview : ∀ d f, kind (view d f) = .int)
    (hB : 8 ≤ B.bytes) (hblk : blk < base.blocks.length) {s n : ℕ}
    (hrep : Represents B layout view L p c)
    (hc : BTreePages.Contents.shiftUp L n (s + n : ℕ) c = .ok c')
    (hready : ∀ i, s < i → i ≤ s + n → Ready B layout base.fileName p i) :
    Takes B base blk (BTreePage.shiftUp B layout blk n (s + n : ℕ)) p (fun q =>
      Represents B layout view L q c' ∧
      ∀ k f, (PageCell.field k f).Of B layout L → ¬ (s < k ∧ k ≤ s + n) →
        KeptCell B layout base.fileName p q (.field k f)) := by
  induction n generalizing p c with
  | zero =>
    cases hc
    exact .skip ⟨hrep, fun k f _ _ => .refl p _⟩
  | succ n ih =>
    unfold BTreePages.Contents.shiftUp at hc
    rw [show ((s + (n + 1) : ℕ) : ℤ) - 1 = (s + n : ℕ) by omega] at hc
    obtain ⟨c₁, hcopy, hrest⟩ := bind_eq_ok.mp hc
    have hfirst := copyRecord_takes h hview hB hblk hrep hcopy
      (hready (s + (n + 1)) (by omega) (Nat.le_refl _))
    have hloop : Takes B base blk (fun tx =>
        BTreePage.copyRecord B layout blk tx (s + n : ℕ) (s + (n + 1) : ℕ) >>=
          BTreePage.shiftUp B layout blk n (s + n : ℕ)) p (fun q =>
        Represents B layout view L q c' ∧
        ∀ k f, (PageCell.field k f).Of B layout L → ¬ (s < k ∧ k ≤ s + (n + 1)) →
          KeptCell B layout base.fileName p q (.field k f)) := by
      refine hfirst.seq ?_
      rintro q ⟨hrep₁, -, hkept⟩
      have hready₁ : ∀ i, s < i → i ≤ s + n → Ready B layout base.fileName q i := by
        intro i hi hle f hf
        have htarget : s + (n + 1) < BTreePages.capacity B L := by
          obtain ⟨r, -, hset⟩ := bind_eq_ok.mp hcopy
          rw [← hrep.room]
          exact (setRecord_ok hset).2.1
        exact ((hkept i f ⟨by omega, hf⟩ (by omega)).logs _).mp (hready i hi (by omega) f hf)
      refine (ih hrep₁ hrest hready₁).mono ?_
      rintro q' ⟨hrep', hkept'⟩
      exact ⟨hrep', fun k f hkf hk => (hkept k f hkf (by omega)).trans (hkept' k f hkf (by omega))⟩
    refine hloop.of_eq (fun log => ?_)
    rw [BTreePage.shiftUp, show ((s + (n + 1) : ℕ) : ℤ) - 1 = (s + n : ℕ) by omega]

end Records

section Inserts

variable {B : BlockSize} {layout : Layout} {L : BTreePages.Layout} {P : Type}
  {view : P → Name → Value} {base : Transaction} {blk : ℕ} {p q : Page}
  {c c' : BTreePages.Contents P}

/-- Copying changes neither the count nor how many slots there are. -/
theorem copyRecord_same {i j : ℤ} (h : c.copyRecord L i j = .ok c') :
    c'.numRecs = c.numRecs ∧ c'.slots.length = c.slots.length := by
  obtain ⟨r, -, hset⟩ := bind_eq_ok.mp h
  unfold BTreePages.Contents.setRecord at hset
  obtain ⟨v, -, hset⟩ := bind_eq_ok.mp hset
  split at hset
  · cases hset
    exact ⟨rfl, List.length_set⟩
  · cases hset

theorem shiftUp_same {n : ℕ} {i : ℤ} (h : BTreePages.Contents.shiftUp L n i c = .ok c') :
    c'.numRecs = c.numRecs ∧ c'.slots.length = c.slots.length := by
  induction n generalizing i c with
  | zero =>
    cases h
    exact ⟨rfl, rfl⟩
  | succ n ih =>
    obtain ⟨c₁, hcopy, hrest⟩ := bind_eq_ok.mp h
    obtain ⟨hnum, hlen⟩ := copyRecord_same hcopy
    obtain ⟨hnum', hlen'⟩ := ih hrest
    exact ⟨hnum'.trans hnum, hlen'.trans hlen⟩

theorem capacity_lt (B : BlockSize) (L : BTreePages.Layout) :
    BTreePages.capacity B L < 2147483648 := by
  have hB := B.lt_int
  have hle : BTreePages.capacity B L ≤ B.bytes - 8 := Nat.div_le_self _ _
  omega

theorem getNumRecs_eq {tx : Transaction} (hrep : Represents B layout view L p c)
    (hpage : tx.contents blk = .ok p) :
    ∃ n, BTreePage.getNumRecs tx blk = .ok n ∧ n.toInt = c.numRecs := by
  have hget := hrep.numRecs.get
  obtain ⟨n, hn, hval⟩ := bind_eq_ok.mp hget
  refine ⟨n, ?_, ?_⟩
  · unfold BTreePage.getNumRecs Transaction.getInt
    rw [hpage]
    exact hn
  · cases hval
    exact toInt_eq _ hrep.numRecs_int.1 hrep.numRecs_int.2

theorem setNumRecs_takes (h : IndexLayout layout L) (hB : 8 ≤ B.bytes)
    (hblk : blk < base.blocks.length) (hrep : Represents B layout view L p c)
    (hlogs : Logs B base.fileName (.int 0)) {n : ℤ} (hn : -2147483648 ≤ n ∧ n < 2147483648) :
    Takes B base blk (fun tx => BTreePage.setNumRecs B blk tx (Int32.ofInt n)) p (fun q =>
      Represents B layout view L q (c.setNumRecs n) ∧
      ∀ x : PageCell, x.Of B layout L → x ≠ .numRecs →
        KeptCell B layout base.fileName p q x) := by
  have hcan : CanLog B base.fileName p (PageCell.numRecs.pos layout)
      (kind (.int (Int32.ofInt n))) := ⟨_, hrep.numRecs.get, logs_int hlogs⟩
  have hsize : (Value.int (Int32.ofInt n)).size ≤ PageCell.numRecs.width layout := Nat.le_refl 4
  have hwrite := Takes.cell (c := PageCell.numRecs) true (h.places hB) hblk hrep.size trivial hsize
    (fun _ => hcan)
  refine hwrite.mono ?_
  rintro q ⟨hq, hself, hkept⟩
  have hslots := hrep.slots_kept (fun i f hif => hkept (.field i f) hif (fun h => by cases h))
  exact ⟨⟨hq, (hkept .flag trivial (fun h => by cases h)).holds _ hrep.flag, hself, hn,
    hrep.room, hslots⟩, hkept⟩

theorem setFlag_takes (h : IndexLayout layout L) (hB : 8 ≤ B.bytes)
    (hblk : blk < base.blocks.length) (hrep : Represents B layout view L p c)
    (hlogs : Logs B base.fileName (.int 0)) (flag : Int32) :
    Takes B base blk (fun tx => BTreePage.setFlag B blk tx flag) p (fun q =>
      Represents B layout view L q (c.setFlag flag.toInt)) := by
  have hcan : CanLog B base.fileName p (PageCell.flag.pos layout) (kind (.int flag)) :=
    ⟨_, hrep.flag.get, logs_int hlogs⟩
  have hsize : (Value.int flag).size ≤ PageCell.flag.width layout := Nat.le_refl 4
  have hwrite := Takes.cell (c := PageCell.flag) true (h.places hB) hblk hrep.size trivial hsize
    (fun _ => hcan)
  refine hwrite.mono ?_
  rintro q ⟨hq, hself, hkept⟩
  have hslots := hrep.slots_kept (fun i f hif => hkept (.field i f) hif (fun h => by cases h))
  have hnum := (hkept .numRecs trivial (fun h => by cases h)).holds _ hrep.numRecs
  refine ⟨hq, ?_, hnum, hrep.numRecs_int, hrep.room, hslots⟩
  show HoldsCell layout q .flag (.int (Int32.ofInt flag.toInt))
  rw [Int32.ofInt_toInt]
  exact hself

/-- Making room for a record at slot `s` overwrites the slots behind it, up to the first one
without a record. -/
theorem insert_takes (h : IndexLayout layout L) (hview : ∀ d f, kind (view d f) = .int)
    (hB : 8 ≤ B.bytes) (hblk : blk < base.blocks.length) {s n : ℕ}
    (hrep : Represents B layout view L p c) (hn : c.numRecs = n) (hs : s ≤ n)
    (hc : c.insert L s = .ok c') (hcap : n < BTreePages.capacity B L)
    (hready : ∀ i, s < i → i ≤ n → Ready B layout base.fileName p i)
    (hlogs : Logs B base.fileName (.int 0)) :
    Takes B base blk (fun tx => BTreePage.insert B layout blk tx s) p (fun q =>
      Represents B layout view L q c' ∧
      ∀ k f, (PageCell.field k f).Of B layout L → ¬ (s < k ∧ k ≤ n) →
        KeptCell B layout base.fileName p q (.field k f)) := by
  have hrounds : ((n : ℤ) - s).toNat = n - s := by omega
  have htop : (n : ℤ) = (s + (n - s) : ℕ) := by omega
  unfold BTreePages.Contents.insert at hc
  rw [hn, hrounds, htop] at hc
  obtain ⟨c₁, hshift, hdone⟩ := bind_eq_ok.mp hc
  cases hdone
  have hnum := (shiftUp_same hshift).1.trans hn
  have hlt := capacity_lt B L
  have hloop := shiftUp_takes h hview hB hblk hrep hshift (fun i hi hle => hready i hi (by omega))
  have hwhole : Takes B base blk (fun tx => BTreePage.shiftUp B layout blk (n - s)
      (s + (n - s) : ℕ) tx >>= fun tx => do
        let numRecs ← BTreePage.getNumRecs tx blk
        BTreePage.setNumRecs B blk tx (Int32.ofInt (numRecs.toInt + 1))) p (fun q =>
      Represents B layout view L q (c₁.setNumRecs ((s + (n - s) : ℕ) + 1)) ∧
      ∀ k f, (PageCell.field k f).Of B layout L → ¬ (s < k ∧ k ≤ n) →
        KeptCell B layout base.fileName p q (.field k f)) := by
    refine hloop.seq ?_
    rintro q ⟨hrep₁, hkept⟩
    have hset := setNumRecs_takes (n := (s + (n - s) : ℕ) + 1) h hB hblk hrep₁ hlogs (by omega)
    refine (hset.mono ?_).of_eq (fun log => ?_)
    · rintro q' ⟨hrep', hkept'⟩
      refine ⟨hrep', ?_⟩
      intro k f hkf hk
      exact (hkept k f hkf (by omega)).trans (hkept' _ hkf (fun h => by cases h))
    · obtain ⟨num, hget, hval⟩ := getNumRecs_eq hrep₁ (contents_withPage hblk log q)
      rw [hget, ok_bind, hval, hnum, htop]
  refine hwhole.of_eq (fun log => ?_)
  obtain ⟨num, hget, hval⟩ := getNumRecs_eq hrep (contents_withPage hblk log p)
  unfold BTreePage.insert
  rw [hget, ok_bind, hval, hn, hrounds, htop]

end Inserts

section Removals

variable {B : BlockSize} {layout : Layout} {L : BTreePages.Layout} {P : Type}
  {view : P → Name → Value} {base : Transaction} {blk : ℕ} {p q : Page}
  {c c' : BTreePages.Contents P}

theorem shiftDown_numRecs {n : ℕ} {i : ℤ} (h : BTreePages.Contents.shiftDown L n i c = .ok c') :
    c'.numRecs = c.numRecs := by
  induction n generalizing i c with
  | zero =>
    cases h
    rfl
  | succ n ih =>
    obtain ⟨c₁, hcopy, hrest⟩ := bind_eq_ok.mp h
    exact (ih hrest).trans (copyRecord_same hcopy).1

/-- The loop of `remove`. The number of records that it reads in every round stays the same. -/
theorem shiftDown_takes (h : IndexLayout layout L) (hview : ∀ d f, kind (view d f) = .int)
    (hB : 8 ≤ B.bytes) (hblk : blk < base.blocks.length) {fuel s n m : ℕ}
    (hrep : Represents B layout view L p c) (hnum : c.numRecs = (s + 1 + n : ℕ))
    (hc : BTreePages.Contents.shiftDown L n (s + 1 : ℕ) c = .ok c') (hfuel : n < fuel)
    (hm : s + 1 + n ≤ m) (hcap : m ≤ BTreePages.capacity B L)
    (hready : ReadyTo B layout base.fileName m p) :
    Takes B base blk (BTreePage.shiftDown B layout blk fuel (s + 1 : ℕ)) p (fun q =>
      Represents B layout view L q c' ∧ ReadyTo B layout base.fileName m q) := by
  induction n generalizing p c fuel s with
  | zero =>
    cases hc
    obtain ⟨fuel, rfl⟩ : ∃ k, fuel = k + 1 := ⟨fuel - 1, by omega⟩
    have hskip : Takes B base blk (fun tx => .ok tx) p (fun q =>
        Represents B layout view L q c' ∧ ReadyTo B layout base.fileName m q) :=
      .skip ⟨hrep, hready⟩
    refine hskip.of_eq (fun log => ?_)
    obtain ⟨num, hget, hval⟩ := getNumRecs_eq hrep (contents_withPage hblk log p)
    rw [BTreePage.shiftDown, hget, ok_bind, if_neg (by omega)]
    rfl
  | succ n ih =>
    obtain ⟨fuel, rfl⟩ : ∃ k, fuel = k + 1 := ⟨fuel - 1, by omega⟩
    unfold BTreePages.Contents.shiftDown at hc
    rw [show ((s + 1 : ℕ) : ℤ) - 1 = (s : ℕ) by omega,
      show ((s + 1 : ℕ) : ℤ) + 1 = (s + 1 + 1 : ℕ) by omega] at hc
    obtain ⟨c₁, hcopy, hrest⟩ := bind_eq_ok.mp hc
    have hfirst := copyRecord_takes h hview hB hblk hrep hcopy (hready s (by omega))
    have hloop : Takes B base blk (fun tx =>
        BTreePage.copyRecord B layout blk tx (s + 1 : ℕ) (s : ℕ) >>=
          BTreePage.shiftDown B layout blk fuel (s + 1 + 1 : ℕ)) p (fun q =>
        Represents B layout view L q c' ∧ ReadyTo B layout base.fileName m q) := by
      refine hfirst.seq ?_
      rintro q ⟨hrep₁, hmoved, hkept⟩
      have hready₁ := hready.of_kept hcap (fun _ => hmoved (hready (s + 1) (by omega))) hkept
      have hnum₁ := (copyRecord_same hcopy).1.trans hnum
      exact ih hrep₁ (by omega) hrest (by omega) (by omega) hready₁
    refine hloop.of_eq (fun log => ?_)
    obtain ⟨num, hget, hval⟩ := getNumRecs_eq hrep (contents_withPage hblk log p)
    rw [BTreePage.shiftDown, hget, ok_bind, if_pos (by omega),
      show ((s + 1 : ℕ) : ℤ) - 1 = (s : ℕ) by omega,
      show ((s + 1 : ℕ) : ℤ) + 1 = (s + 1 + 1 : ℕ) by omega]

theorem remove_takes (h : IndexLayout layout L) (hview : ∀ d f, kind (view d f) = .int)
    (hB : 8 ≤ B.bytes) (hblk : blk < base.blocks.length) {s n m : ℕ}
    (hrep : Represents B layout view L p c) (hnum : c.numRecs = (s + 1 + n : ℕ))
    (hc : c.remove L s = .ok c') (hm : s + 1 + n ≤ m) (hcap : m ≤ BTreePages.capacity B L)
    (hready : ReadyTo B layout base.fileName m p) (hlogs : Logs B base.fileName (.int 0)) :
    Takes B base blk (fun tx => BTreePage.remove B layout blk tx s) p (fun q =>
      Represents B layout view L q c' ∧ ReadyTo B layout base.fileName m q) := by
  have hrounds : (c.numRecs - ((s : ℤ) + 1)).toNat = n := by omega
  unfold BTreePages.Contents.remove at hc
  rw [hrounds, show (s : ℤ) + 1 = (s + 1 : ℕ) by omega] at hc
  obtain ⟨c₁, hshift, hdone⟩ := bind_eq_ok.mp hc
  cases hdone
  have hnum₁ := (shiftDown_numRecs hshift).trans hnum
  have hlt := capacity_lt B L
  have hfuel : n < (c.numRecs - s).toNat + 1 := by omega
  have hloop := shiftDown_takes h hview hB hblk hrep hnum hshift hfuel hm hcap hready
  have hwhole : Takes B base blk (fun tx => BTreePage.shiftDown B layout blk
      ((c.numRecs - s).toNat + 1) (s + 1 : ℕ) tx >>= fun tx => do
        let numRecs ← BTreePage.getNumRecs tx blk
        BTreePage.setNumRecs B blk tx (Int32.ofInt (numRecs.toInt - 1))) p (fun q =>
      Represents B layout view L q (c₁.setNumRecs (c.numRecs - 1)) ∧
      ReadyTo B layout base.fileName m q) := by
    refine hloop.seq ?_
    rintro q ⟨hrep₁, hready₁⟩
    have hset := setNumRecs_takes (n := c.numRecs - 1) h hB hblk hrep₁ hlogs (by omega)
    refine (hset.mono ?_).of_eq (fun log => ?_)
    · rintro q' ⟨hrep', hkept'⟩
      refine ⟨hrep', ?_⟩
      intro i hi f hf
      have hsame := hkept' (.field i f) ⟨Nat.lt_of_lt_of_le hi hcap, hf⟩ (fun h => by cases h)
      exact (hsame.logs _).mp (hready₁ i hi f hf)
    · obtain ⟨num, hget, hval⟩ := getNumRecs_eq hrep₁ (contents_withPage hblk log q)
      rw [hget, ok_bind, hval, hnum₁, hnum]
  refine hwhole.of_eq (fun log => ?_)
  obtain ⟨num, hget, hval⟩ := getNumRecs_eq hrep (contents_withPage hblk log p)
  unfold BTreePage.remove
  rw [hget, ok_bind, hval, show (s : ℤ) + 1 = (s + 1 : ℕ) by omega]

end Removals

end SampleDB.IndexSteps
