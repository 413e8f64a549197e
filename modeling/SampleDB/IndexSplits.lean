import SampleDB.IndexSteps

/-!
Splitting an index page. The records from a position on are put at the end of a new page, one by
one, and taken out of the old one; a new page is formatted first, slot by slot. The position
behind the last slot is computed, too: where it is no `int`, the formatting goes on at a negative
position, and fails.
-/
namespace SampleDB.IndexSplits

open Words Pages Blocks Logging Lexer Schemas Rollback Endings PageValues RecordPages StoredRecords
open StoredTables PageWrites IndexPages IndexCells IndexSteps

section Transfers

variable {B : BlockSize} {layout : Layout} {L : BTreePages.Layout} {P : Type}
  {view : P → Name → Value} {base : Transaction} {src dst : ℕ} {ps pd : Page}
  {source dest source' dest' c c' : BTreePages.Contents P}

/-- The transaction with this log, and with these pages in the places of two blocks. -/
def withPages (base : Transaction) (src dst : ℕ) (log : LogMgr) (ps pd : Page) : Transaction :=
  { base with log := log, blocks := (base.blocks.set src ps).set dst pd }

theorem withPages_dest (base : Transaction) (src dst : ℕ) (log : LogMgr) (ps pd : Page) :
    withPages base src dst log ps pd = withPage (withPage base src base.log ps) dst log pd := rfl

theorem withPages_source (base : Transaction) (hne : dst ≠ src) (log : LogMgr) (ps pd : Page) :
    withPages base src dst log ps pd = withPage (withPage base dst base.log pd) src log ps := by
  unfold withPages withPage
  dsimp only
  rw [List.set_comm _ _ (Ne.symm hne)]

theorem contents_source (base : Transaction) (hne : dst ≠ src) (hsrc : src < base.blocks.length)
    (log : LogMgr) (ps pd : Page) : (withPages base src dst log ps pd).contents src = .ok ps := by
  have hlen : src < (withPage base dst base.log pd).blocks.length := by
    show src < (base.blocks.set dst pd).length
    rw [List.length_set]
    exact hsrc
  rw [withPages_source base hne]
  exact contents_withPage hlen log ps

theorem insert_same {slot : ℤ} (h : c.insert L slot = .ok c') :
    c'.numRecs = c.numRecs + 1 ∧ c'.slots.length = c.slots.length := by
  obtain ⟨c₁, hshift, hdone⟩ := bind_eq_ok.mp h
  cases hdone
  exact ⟨rfl, (shiftUp_same hshift).2⟩

theorem remove_numRecs {slot : ℤ} (h : c.remove L slot = .ok c') :
    c'.numRecs = c.numRecs - 1 := by
  obtain ⟨c₁, -, hdone⟩ := bind_eq_ok.mp h
  cases hdone
  rfl

/-- One round of `transferRecs`, between two blocks of the file. -/
def transferRound (B : BlockSize) (layout : Layout) (src : ℕ) (s : ℤ) (dst : ℕ) (t : ℤ)
    (tx : Transaction) : Result Transaction := do
  let tx ← BTreePage.insert B layout dst tx t
  let tx ← layout.schema.fields.foldlM (BTreePage.transferField B layout src s dst t) tx
  BTreePage.remove B layout src tx s

/-- The first part of a round: the record of a slot is appended to the other page. -/
theorem received_ok (h : IndexLayout layout L) (hview : ∀ d f, kind (view d f) = .int)
    (hB : 8 ≤ B.bytes) (hne : dst ≠ src) (hsrc : src < base.blocks.length)
    (hdst : dst < base.blocks.length) (hlogs : Logs B base.fileName (.int 0)) {s t : ℕ}
    {r : BTreePages.Record P} {dest₁ : BTreePages.Contents P} (hslot : SlotHolds layout view ps s r)
    (hsready : Ready B layout base.fileName ps s) (hdest : Represents B layout view L pd dest)
    (hnumd : dest.numRecs = t) (hinsert : dest.insert L t = .ok dest₁)
    (hset : dest₁.setRecord L t r.dataval r.data = .ok dest')
    (hreadyd : ReadyTo B layout base.fileName (BTreePages.capacity B L) pd)
    {log : LogMgr} (hlog : Usable B log.page) :
    ∃ log' pd', (BTreePage.insert B layout dst (withPages base src dst log ps pd) t >>= fun tx =>
        layout.schema.fields.foldlM (BTreePage.transferField B layout src s dst t) tx) =
          .ok (withPages base src dst log' ps pd') ∧ Usable B log'.page ∧
      Represents B layout view L pd' dest' ∧
      ReadyTo B layout base.fileName (BTreePages.capacity B L) pd' := by
  have hdst' : dst < (withPage base src base.log ps).blocks.length := by
    show dst < (base.blocks.set src ps).length
    rw [List.length_set]
    exact hdst
  have htop : t < BTreePages.capacity B L := by
    have hroom := (setRecord_ok hset).2.1
    rw [(insert_same hinsert).2, hdest.room] at hroom
    exact hroom
  have hins := insert_takes h hview hB hdst' hdest hnumd
    (Nat.le_refl t) hinsert htop (fun i hi hle => absurd hi (by omega)) hlogs
  obtain ⟨log₁, pd₁, hins, hlog₁, hdest₁, hkept₁⟩ := hins log hlog
  have hready₁ : ReadyTo B layout base.fileName (BTreePages.capacity B L) pd₁ := by
    intro i hi f hf
    exact ((hkept₁ i f ⟨hi, hf⟩ (by omega)).logs _).mp (hreadyd i hi f hf)
  -- the fields are read in the source, which these writes leave alone
  have hfields := setRecord_takes h hview hB
    hdst' hdest₁ hset (hready₁ t htop) (g := BTreePage.transferField B layout src s dst t) h.nodup
    (fun f => Iff.rfl) (fun f hf q log _ => by
      obtain ⟨hkind, hholds⟩ := hslot f hf
      have hread := hholds.get
      rw [hkind] at hread
      have hpage : (withPage (withPage base src base.log ps) dst log q).contents src = .ok ps := by
        rw [contents_withPage_ne (Ne.symm hne)]
        exact contents_withPage hsrc base.log ps
      unfold BTreePage.transferField
      rw [h.getValue_eq hf hpage, hread, ok_bind, h.setValue_eq hf hkind])
  obtain ⟨log₂, pd₂, hfields, hlog₂, hdest₂, hnew, hkept⟩ := hfields log₁ hlog₁
  refine ⟨log₂, pd₂, ?_, hlog₂, hdest₂, ?_⟩
  · dsimp only at hins hfields
    rw [← withPages_dest, ← withPages_dest] at hins hfields
    rw [hins, ok_bind, hfields]
  · exact hready₁.of_kept (Nat.le_refl _) (fun _ => hnew.ready (fun f hf => hslot.logs hsready hf))
      (fun k f hkf hkt => hkept _ hkf (fun g _ heq => hkt (PageCell.field.inj heq).1))

/-- The record of a slot is appended to the other page and removed from this one. -/
theorem transferRound_ok (h : IndexLayout layout L) (hview : ∀ d f, kind (view d f) = .int)
    (hB : 8 ≤ B.bytes) (hne : dst ≠ src) (hsrc : src < base.blocks.length)
    (hdst : dst < base.blocks.length) (hlogs : Logs B base.fileName (.int 0)) {s n t m : ℕ}
    (hsource : Represents B layout view L ps source) (hdest : Represents B layout view L pd dest)
    (hnum : source.numRecs = (s + 1 + n : ℕ)) (hnumd : dest.numRecs = t)
    {r : BTreePages.Record P} {dest₁ : BTreePages.Contents P}
    (hinsert : dest.insert L t = .ok dest₁) (hrecord : source.record L s = .ok r)
    (hset : dest₁.setRecord L t r.dataval r.data = .ok dest')
    (hremove : source.remove L s = .ok source') (hm : s + 1 + n ≤ m)
    (hcap : m ≤ BTreePages.capacity B L) (hready : ReadyTo B layout base.fileName m ps)
    (hreadyd : ReadyTo B layout base.fileName (BTreePages.capacity B L) pd)
    {log : LogMgr} (hlog : Usable B log.page) :
    ∃ log' ps' pd', transferRound B layout src s dst t (withPages base src dst log ps pd) =
        .ok (withPages base src dst log' ps' pd') ∧ Usable B log'.page ∧
      Represents B layout view L ps' source' ∧ Represents B layout view L pd' dest' ∧
      ReadyTo B layout base.fileName m ps' ∧
      ReadyTo B layout base.fileName (BTreePages.capacity B L) pd' := by
  have hslot := hsource.slots s r (record_ok hrecord)
  obtain ⟨log₁, pd', hreceived, hlog₁, hdest', hreadyd'⟩ := received_ok h hview hB hne hsrc hdst
    hlogs hslot (hready s (by omega)) hdest hnumd hinsert hset hreadyd hlog
  have hsrc' : src < (withPage base dst base.log pd').blocks.length := by
    show src < (base.blocks.set dst pd').length
    rw [List.length_set]
    exact hsrc
  have hrem := remove_takes h hview hB hsrc' hsource hnum hremove hm hcap hready hlogs
  obtain ⟨log₂, ps', hrem, hlog₂, hsource', hready'⟩ := hrem log₁ hlog₁
  refine ⟨log₂, ps', pd', ?_, hlog₂, hsource', hdest', hready', hreadyd'⟩
  dsimp only at hrem
  rw [← withPages_source base hne, ← withPages_source base hne] at hrem
  obtain ⟨tx, hins, hfields⟩ := bind_eq_ok.mp hreceived
  unfold transferRound
  rw [hins, ok_bind, hfields, ok_bind, hrem]

/-- The loop of `transferRecs`. The source has one record less after each round, and the
destination one more. -/
theorem transferFrom_ok (h : IndexLayout layout L) (hview : ∀ d f, kind (view d f) = .int)
    (hB : 8 ≤ B.bytes) (hne : dst ≠ src) (hsrc : src < base.blocks.length)
    (hdst : dst < base.blocks.length) (hlogs : Logs B base.fileName (.int 0)) {fuel s n t m : ℕ}
    (hsource : Represents B layout view L ps source) (hdest : Represents B layout view L pd dest)
    (hnum : source.numRecs = (s + n : ℕ)) (hnumd : dest.numRecs = t)
    (hc : BTreePages.Contents.transferFrom L s n t source dest = .ok (source', dest'))
    (hfuel : n < fuel) (hm : s + n ≤ m) (hcap : m ≤ BTreePages.capacity B L)
    (hready : ReadyTo B layout base.fileName m ps)
    (hreadyd : ReadyTo B layout base.fileName (BTreePages.capacity B L) pd)
    {log : LogMgr} (hlog : Usable B log.page) :
    ∃ log' ps' pd', BTreePage.transferFrom B layout src s dst fuel t
        (withPages base src dst log ps pd) = .ok (withPages base src dst log' ps' pd') ∧
      Usable B log'.page ∧ Represents B layout view L ps' source' ∧
      Represents B layout view L pd' dest' := by
  induction n generalizing t source dest ps pd log fuel with
  | zero =>
    obtain ⟨fuel, rfl⟩ : ∃ k, fuel = k + 1 := ⟨fuel - 1, by omega⟩
    cases hc
    obtain ⟨num, hget, hval⟩ := getNumRecs_eq hsource (contents_source base hne hsrc log ps pd)
    refine ⟨log, ps, pd, ?_, hlog, hsource, hdest⟩
    rw [BTreePage.transferFrom, hget, ok_bind, if_neg (by omega)]
    rfl
  | succ n ih =>
    obtain ⟨fuel, rfl⟩ : ∃ k, fuel = k + 1 := ⟨fuel - 1, by omega⟩
    obtain ⟨num, hget, hval⟩ := getNumRecs_eq hsource (contents_source base hne hsrc log ps pd)
    unfold BTreePages.Contents.transferFrom at hc
    obtain ⟨dest₁, hinsert, hc⟩ := bind_eq_ok.mp hc
    obtain ⟨r, hrecord, hc⟩ := bind_eq_ok.mp hc
    obtain ⟨dest₂, hset, hc⟩ := bind_eq_ok.mp hc
    obtain ⟨source₁, hremove, hc⟩ := bind_eq_ok.mp hc
    obtain ⟨log₁, ps₁, pd₁, hround, hlog₁, hsource₁, hdest₁, hready₁, hreadyd₁⟩ :=
      transferRound_ok (n := n) h hview hB hne hsrc hdst hlogs hsource hdest (by omega) hnumd
        hinsert hrecord hset hremove (by omega) hcap hready hreadyd hlog
    have hnum₁ := remove_numRecs hremove
    have hnumd₁ : dest₂.numRecs = (t + 1 : ℕ) := by
      rw [(setRecord_ok hset).2.2]
      show dest₁.numRecs = _
      rw [(insert_same hinsert).1, hnumd]
      rfl
    have hrounds : n < fuel := by omega
    obtain ⟨log', ps', pd', hrest, hlog', hsource', hdest'⟩ :=
      ih hsource₁ hdest₁ (by omega) hnumd₁ hc hrounds (by omega) hready₁ hreadyd₁ hlog₁
    refine ⟨log', ps', pd', ?_, hlog', hsource', hdest'⟩
    unfold transferRound at hround
    simp only [← bind_assoc] at hround
    obtain ⟨tx₂, hfields, hremoved⟩ := bind_eq_ok.mp hround
    obtain ⟨tx₁, hins, hfields⟩ := bind_eq_ok.mp hfields
    rw [BTreePage.transferFrom, hget, ok_bind, if_pos (by omega), hins, ok_bind, hfields, ok_bind,
      hremoved, ok_bind]
    exact hrest

end Transfers

end SampleDB.IndexSplits
