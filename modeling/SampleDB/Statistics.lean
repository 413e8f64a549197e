import SampleDB.Runs
import SampleDB.UpdatePlanner

/-!
StatMgr: the statistics of the tables, cached and refreshed after so many calls. The files are
kept as the slots of their records; the layout of a table, and so the number of its slots in a
block, does not change. A table whose slots do not fit in a block has no slot that is used.
Two parts of a state are not in the source: the files as they were at the last refresh, and
the tables that were asked for since.
-/
namespace SampleDB.Statistics

open Lexer Schemas Pages TableScans UpdatePlanner Runs

section Source

/-- A number that was never set is `none`. -/
structure StatInfo where
  numBlocks : Option ℕ
  numRecords : Option ℕ
  deriving DecidableEq

/-- The default constructor. -/
def StatInfo.unset : StatInfo := ⟨none, none⟩

/-- The files of the tables; one that does not exist has no slots. -/
abbrev Db := Name → List (Slot Row)

def tblcat : Name := "tblcat".toList
def fldcat : Name := "fldcat".toList

def tblname (row : Row) : Name := (row "tblname".toList).sval.getD []

variable {σ : Type}

/-- The loop over the records of a table, in at most so many rounds. -/
def forNext (form : Form Row) (body : TableScan Row → σ → Result σ) :
    ℕ → TableScan Row → σ → Result σ
  | 0, _, _ => .error .outside
  | n + 1, ts, s =>
      let (found, ts) := ts.next form
      if found then do forNext form body n ts (← body ts s) else .ok s

variable (form : Name → Form Row)

def recordsOf (db : Db) (tableName : Name) : List (Rid × Row) :=
  records (form tableName) (db tableName)

/-- The tables in the catalog. -/
def tableNames (db : Db) : List Name := (recordsOf form db tblcat).map (fun r => tblname r.2)

/-- A table that is not in the catalog has no layout to read it with. -/
def calcTableStats (tableName : Name) (db : Db) : Result (StatInfo × Db) :=
  if tableName ∈ tableNames form db then do
    let ts := TableScan.new (form tableName) (db tableName)
    let (numBlocks, numRecords) ← forNext (form tableName) (fun ts s => do
      let rid ← ts.getRid
      return (rid.blockNumber + 1, s.2 + 1)) (ts.slots.length + 1) ts (0, 0)
    return (⟨some numBlocks, some numRecords⟩, Function.update db tableName ts.slots)
  else .error .outside

structure StatMgr where
  tableStats : Name → Option StatInfo
  numCalls : ℕ

def refreshStatistics (db : Db) : Result (StatMgr × Db) := do
  let ts := TableScan.new (form tblcat) (db tblcat)
  let (tableStats, db) ← forNext (form tblcat) (fun ts s => do
    let (_, slot) ← ts.get (form tblcat)
    let tableName := tblname slot.row
    let (info, db) ← calcTableStats form tableName s.2
    return (Function.update s.1 tableName (some info), db)) (ts.slots.length + 1) ts
      (fun _ => none, Function.update db tblcat ts.slots)
  return (⟨tableStats, 0⟩, db)

/-- `getStatInfo` behind the refresh; `operator[]` puts a default value under a name that the
map does not have. -/
def findStats (tableName : Name) (m : StatMgr) (db : Db) : Result (StatInfo × StatMgr × Db) :=
  match m.tableStats tableName with
  | some _ => do
      let (info, db) ← calcTableStats form tableName db
      return (info, { m with tableStats := Function.update m.tableStats tableName (some info) }, db)
  | none =>
      .ok (.unset,
        { m with tableStats := Function.update m.tableStats tableName (some .unset) }, db)

def getStatInfo (tableName : Name) (m : StatMgr) (db : Db) : Result (StatInfo × StatMgr × Db) :=
  let m := { m with numCalls := m.numCalls + 1 }
  if 100 < m.numCalls then do
    let (m, db) ← refreshStatistics form db
    findStats form tableName m db
  else findStats form tableName m db

end Source

section Histories

variable (form : Name → Form Row)

/-- A record is inserted behind a place in its table. -/
def insertRow (tableName : Name) (block : ℕ) (slot : Option ℕ) (row : Row) (db : Db) : Db :=
  let ts := TableScan.new (form tableName) (db tableName)
  let ts := { ts with block := block, slot := slot }.insert (form tableName)
  Function.update db tableName ((ts.current (form tableName)).elim ts.slots
    (fun i => ts.slots.set i ⟨true, row⟩))

def deleteRow (tableName : Name) (i : ℕ) (db : Db) : Db :=
  Function.update db tableName ((db tableName).modify i (fun slot => { slot with used := false }))

/-- A record in `tblcat`, and one in `fldcat` for each field. -/
def createTable (trow : Row) (frows : List Row) (db : Db) : Db :=
  frows.foldl (fun db row => insertRow form fldcat 0 none row db)
    (insertRow form tblcat 0 none trow db)

inductive Event
  | create (trow : Row) (frows : List Row)
  | insert (tableName : Name) (block : ℕ) (slot : Option ℕ) (row : Row)
  | delete (tableName : Name) (i : ℕ)
  | getStatInfo (tableName : Name)

structure State where
  mgr : StatMgr
  db : Db
  refreshed : Db
  asked : List Name

/-- The constructor of StatMgr on the files that there are. -/
def start (db : Db) : Result State := do
  let (mgr, db') ← refreshStatistics form db
  return ⟨mgr, db', db, []⟩

/-- A call, and whether it refreshes. -/
def call (tableName : Name) (s : State) : Result (StatInfo × State) := do
  let (info, mgr, db) ← getStatInfo form tableName s.mgr s.db
  if 100 < s.mgr.numCalls + 1 then return (info, ⟨mgr, db, s.db, [tableName]⟩)
  else return (info, ⟨mgr, db, s.refreshed, tableName :: s.asked⟩)

def step (s : State) : Event → Result State
  | .create trow frows => .ok { s with db := createTable form trow frows s.db }
  | .insert tableName block slot row =>
      .ok { s with db := insertRow form tableName block slot row s.db }
  | .delete tableName i => .ok { s with db := deleteRow tableName i s.db }
  | .getStatInfo tableName => do return (← call form tableName s).2

/-- What the statistics of a table should be: one more than the block of its last record, and
the number of its records. -/
def liveStats (db : Db) (tableName : Name) : StatInfo :=
  ⟨some ((recordsOf form db tableName).getLast?.elim 0 (fun r => r.1.blockNumber + 1)),
    some (recordsOf form db tableName).length⟩

/-- The call returns what the files have now, or had at the last refresh. -/
def Sound (s : State) (tableName : Name) : Prop :=
  ∃ info s', call form tableName s = .ok (info, s') ∧
    (info = liveStats form s.db tableName ∨ info = liveStats form s'.refreshed tableName)

/-- The table was there at the last refresh, or was asked for since, or the call refreshes. -/
def Known (s : State) (tableName : Name) : Prop :=
  tableName ∈ tableNames form s.refreshed ∨ tableName ∈ s.asked ∨ 100 ≤ s.mgr.numCalls

end Histories

section Scans

variable {σ : Type} {form : Form Row} {ts : TableScan Row} {s : σ}

/-- The loop takes the records in their order. -/
theorem forNext_eq {body : TableScan Row → σ → Result σ} {act : σ → Rid × Row → Result σ}
    (hbody : ∀ (ts : TableScan Row) (i : ℕ) (slot : Slot Row) (s : σ), ts.slots[i]? = some slot →
      body (ts.moveTo form i) s = act s (form.rid i, slot.row))
    {n : ℕ} (hn : ts.slots.length < n + ts.start form) (hpos : 0 < n) :
    forNext form body n ts s =
      (recordsFrom form (ts.start form) (ts.slots.drop (ts.start form))).foldlM act s := by
  induction n generalizing ts s with
  | zero => omega
  | succ n ih =>
    rw [forNext]
    rcases recordsFrom_drop form ts.slots (ts.start form) with
      ⟨i, slot, hfound, hslot, hle, hrecords⟩ | ⟨hnone, hrecords⟩
    · have hnext : ts.next form = (true, ts.moveTo form i) := by
        unfold TableScan.next
        rw [hfound]
      have hlt := (List.getElem?_eq_some_iff.mp hslot).1
      rw [hnext, hrecords, List.foldlM_cons]
      dsimp only
      rw [if_pos rfl, hbody ts i slot s hslot]
      cases act s (form.rid i, slot.row) with
      | error e => rfl
      | ok s' =>
        have hrest := @ih (ts.moveTo form i) s' (by
          rw [start_moveTo]
          show ts.slots.length < _
          omega) (by omega)
        rw [start_moveTo] at hrest
        exact hrest
    · have hnext : ts.next form =
          (false, { ts with block := ts.slots.length / form.perBlock - 1, slot := none }) := by
        unfold TableScan.next
        rw [hnone]
      rw [hnext, hrecords]
      rfl

/-- A scan that was just made takes all records. -/
theorem forNext_new (form : Form Row) (body : TableScan Row → σ → Result σ)
    (act : σ → Rid × Row → Result σ)
    (hbody : ∀ (ts : TableScan Row) (i : ℕ) (slot : Slot Row) (s : σ), ts.slots[i]? = some slot →
      body (ts.moveTo form i) s = act s (form.rid i, slot.row)) (slots : List (Slot Row)) (s : σ) :
    forNext form body ((TableScan.new form slots).slots.length + 1) (TableScan.new form slots) s =
      (records form slots).foldlM act s := by
  have hstart : (TableScan.new form slots).start form = 0 := by
    show 0 * form.perBlock + 0 = 0
    omega
  rw [forNext_eq hbody (by omega) (by omega), hstart, List.drop_zero]
  exact congrArg (fun rs => rs.foldlM act s) (records_new slots)

/-- The last block and the number of records, counted up. -/
theorem count_fold (rs : List (Rid × Row)) (b n : ℕ) :
    rs.foldlM (fun (s : ℕ × ℕ) r => (.ok (r.1.blockNumber + 1, s.2 + 1) : Result (ℕ × ℕ))) (b, n) =
      .ok (rs.getLast?.elim b (fun r => r.1.blockNumber + 1), n + rs.length) := by
  induction rs generalizing b n with
  | nil => rfl
  | cons r rs ih =>
    rw [List.foldlM_cons]
    show rs.foldlM _ (r.1.blockNumber + 1, n + 1) = _
    have hcount : n + 1 + rs.length = n + (rs.length + 1) := by omega
    rw [ih, List.getLast?_cons, List.length_cons, hcount]
    cases rs.getLast? with
    | none => rfl
    | some r' => rfl

end Scans

section Calls

variable {form : Name → Form Row} {db db' : Db} {tableName : Name}

/-- Files with the same records. -/
def Same (form : Name → Form Row) (db db' : Db) : Prop := recordsOf form db' = recordsOf form db

theorem Same.tableNames (h : Same form db db') : tableNames form db' = tableNames form db := by
  unfold Statistics.tableNames
  rw [h]

theorem Same.liveStats (h : Same form db db') : liveStats form db' = liveStats form db := by
  unfold Statistics.liveStats
  rw [h]

/-- A scan adds a block to an empty file. -/
theorem same_new (db : Db) (tableName : Name) :
    Same form db (Function.update db tableName
      (TableScan.new (form tableName) (db tableName)).slots) := by
  funext name
  unfold recordsOf
  by_cases hname : name = tableName
  · rw [hname, Function.update_self]
    exact records_new (db tableName)
  · rw [Function.update_of_ne hname]

theorem calcTableStats_eq (h : tableName ∈ tableNames form db) :
    ∃ db', calcTableStats form tableName db = .ok (liveStats form db tableName, db') ∧
      Same form db db' := by
  have hloop := forNext_new (form tableName)
    (fun ts s => do
      let rid ← ts.getRid
      return (rid.blockNumber + 1, s.2 + 1))
    (fun (s : ℕ × ℕ) r => .ok (r.1.blockNumber + 1, s.2 + 1))
    (fun ts i slot s _ => rfl) (db tableName) (0, 0)
  refine ⟨_, ?_, same_new db tableName⟩
  unfold calcTableStats
  rw [if_pos h]
  dsimp only
  rw [hloop, count_fold]
  show Except.ok (_, _) = _
  rw [Nat.zero_add]
  rfl

/-- The refresh goes through the names in the catalog. -/
theorem refresh_fold (rs : List (Rid × Row)) (hrs : ∀ r ∈ rs, tblname r.2 ∈ tableNames form db)
    (hsame : Same form db db') (stats : Name → Option StatInfo) :
    ∃ stats' db'', rs.foldlM (fun (s : (Name → Option StatInfo) × Db) r => do
        let (info, db) ← calcTableStats form (tblname r.2) s.2
        return (Function.update s.1 (tblname r.2) (some info), db)) (stats, db') =
          .ok (stats', db'') ∧ Same form db db'' ∧
      ∀ name, stats' name = none ↔ stats name = none ∧ name ∉ rs.map (fun r => tblname r.2) := by
  induction rs generalizing db' stats with
  | nil => exact ⟨stats, db', rfl, hsame, fun name => by simp⟩
  | cons r rs ih =>
    have hname : tblname r.2 ∈ tableNames form db' := by
      rw [hsame.tableNames]
      exact hrs r List.mem_cons_self
    obtain ⟨db₁, hcalc, hsame₁⟩ := calcTableStats_eq hname
    have hsame' : Same form db db₁ := hsame₁.trans hsame
    obtain ⟨stats', db'', hfold, hsame'', hstats⟩ :=
      ih (fun r hr => hrs r (List.mem_cons_of_mem _ hr)) hsame'
        (Function.update stats (tblname r.2) (some (liveStats form db' (tblname r.2))))
    refine ⟨stats', db'', ?_, hsame'', fun name => ?_⟩
    · rw [List.foldlM_cons, hcalc]
      exact hfold
    · rw [hstats name, List.map_cons, List.mem_cons, not_or]
      by_cases heq : name = tblname r.2
      · rw [heq, Function.update_self]
        simp
      · rw [Function.update_of_ne heq]
        simp [heq]

theorem refreshStatistics_eq (form : Name → Form Row) (db : Db) : ∃ m db',
    refreshStatistics form db = .ok (m, db') ∧
    Same form db db' ∧ m.numCalls = 0 ∧
      ∀ name, m.tableStats name = none ↔ name ∉ tableNames form db := by
  have hloop := forNext_new (form tblcat)
    (fun ts (s : (Name → Option StatInfo) × Db) => do
      let (_, slot) ← ts.get (form tblcat)
      let tableName := tblname slot.row
      let (info, db) ← calcTableStats form tableName s.2
      return (Function.update s.1 tableName (some info), db))
    (fun s r => do
      let (info, db) ← calcTableStats form (tblname r.2) s.2
      return (Function.update s.1 (tblname r.2) (some info), db))
    (fun ts i slot s hslot => by rw [get_moveTo (form tblcat) ts hslot]; rfl) (db tblcat)
  obtain ⟨stats, db', hfold, hsame, hstats⟩ :=
    refresh_fold (recordsOf form db tblcat) (fun r hr => List.mem_map.mpr ⟨r, hr, rfl⟩)
      (same_new db tblcat) (fun _ => none)
  refine ⟨⟨stats, 0⟩, db', ?_, hsame, rfl, fun name => ?_⟩
  · unfold refreshStatistics
    dsimp only
    rw [hloop]
    unfold recordsOf at hfold
    rw [hfold]
    rfl
  · rw [hstats name]
    exact and_iff_right rfl

end Calls

section Runs

variable {form : Name → Form Row} {s s' : State} {tableName : Name} {m m' : StatMgr} {db db' : Db}
  {info : StatInfo}

/-- What is in the cache is computed again, and what is not comes unset. -/
theorem findStats_eq (m : StatMgr) (hname : tableName ∈ tableNames form db) : ∃ info m' db',
    findStats form tableName m db = .ok (info, m', db') ∧
      info = if m.tableStats tableName = none then .unset else liveStats form db tableName := by
  unfold findStats
  cases hfound : m.tableStats tableName with
  | none => exact ⟨_, _, _, rfl, (if_pos rfl).symm⟩
  | some old =>
    obtain ⟨db', hcalc, -⟩ := calcTableStats_eq hname
    dsimp only
    rw [hcalc]
    exact ⟨_, _, _, rfl, (if_neg (Option.some_ne_none old)).symm⟩

theorem findStats_stats (h : findStats form tableName m db = .ok (info, m', db')) (name : Name) :
    m'.tableStats name = none ↔ name ≠ tableName ∧ m.tableStats name = none := by
  have hupdate : ∀ i : StatInfo, Function.update m.tableStats tableName (some i) name = none ↔
      name ≠ tableName ∧ m.tableStats name = none := by
    intro i
    by_cases heq : name = tableName
    · rw [heq, Function.update_self]
      simp
    · rw [Function.update_of_ne heq]
      exact (and_iff_right heq).symm
  unfold findStats at h
  cases hfound : m.tableStats tableName with
  | none =>
    rw [hfound] at h
    cases h
    exact hupdate _
  | some old =>
    rw [hfound] at h
    obtain ⟨⟨i, db₂⟩, -, h⟩ := bind_eq_ok.mp h
    cases h
    exact hupdate _

theorem getStatInfo_eq (hname : tableName ∈ tableNames form db) : ∃ info m' db',
    getStatInfo form tableName m db = .ok (info, m', db') ∧ info =
      if m.tableStats tableName = none ∧ m.numCalls < 100 then .unset
      else liveStats form db tableName := by
  unfold getStatInfo
  dsimp only
  by_cases hrefresh : 100 < m.numCalls + 1
  · obtain ⟨m₁, db₁, hok, hsame, -, hstats⟩ := refreshStatistics_eq form db
    have hcached : m₁.tableStats tableName ≠ none := fun h => (hstats tableName).mp h hname
    obtain ⟨info, m', db', hfind, hinfo⟩ := findStats_eq m₁
      (show tableName ∈ tableNames form db₁ by rw [hsame.tableNames]; exact hname)
    rw [if_pos hrefresh, hok]
    refine ⟨info, m', db', hfind, ?_⟩
    rw [hinfo, if_neg hcached, if_neg (by omega), hsame.liveStats]
  · obtain ⟨info, m', db', hfind, hinfo⟩ := findStats_eq
      { m with numCalls := m.numCalls + 1 } hname
    rw [if_neg hrefresh]
    refine ⟨info, m', db', hfind, hinfo.trans ?_⟩
    exact if_congr (and_iff_left (by omega)).symm rfl rfl

/-- The table that was asked for is in the cache, and the others as before. -/
theorem getStatInfo_stats (h : getStatInfo form tableName m db = .ok (info, m', db'))
    (name : Name) :
    m'.tableStats name = none ↔ name ≠ tableName ∧
      if 100 < m.numCalls + 1 then name ∉ tableNames form db else m.tableStats name = none := by
  unfold getStatInfo at h
  dsimp only at h
  by_cases hrefresh : 100 < m.numCalls + 1
  · obtain ⟨m₁, db₁, hok, -, -, hstats⟩ := refreshStatistics_eq form db
    rw [if_pos hrefresh, hok] at h
    rw [if_pos hrefresh, ← hstats name]
    exact findStats_stats h name
  · rw [if_neg hrefresh] at h
    rw [if_neg hrefresh]
    exact findStats_stats h name

/-- The cache has the tables of the last refresh, and those that were asked for since. -/
def Cached (form : Name → Form Row) (s : State) : Prop :=
  ∀ name, s.mgr.tableStats name = none ↔
    name ∉ tableNames form s.refreshed ∧ name ∉ s.asked

theorem start_cached (h : start form db = .ok s) : Cached form s := by
  obtain ⟨m, db', hrefresh, -, -, hstats⟩ := refreshStatistics_eq form db
  unfold start at h
  rw [hrefresh] at h
  cases h
  intro name
  exact (hstats name).trans (and_iff_left (List.not_mem_nil)).symm

theorem call_cached (hs : Cached form s) (h : call form tableName s = .ok (info, s')) :
    Cached form s' := by
  obtain ⟨⟨i, m, db⟩, hget, h⟩ := bind_eq_ok.mp h
  have hstats := getStatInfo_stats hget
  intro name
  dsimp only at h
  by_cases hrefresh : 100 < s.mgr.numCalls + 1
  · rw [if_pos hrefresh] at h
    cases h
    show m.tableStats name = none ↔ name ∉ tableNames form s.db ∧ name ∉ [tableName]
    rw [hstats name, if_pos hrefresh, List.mem_singleton, and_comm]
  · rw [if_neg hrefresh] at h
    cases h
    show m.tableStats name = none ↔
      name ∉ tableNames form s.refreshed ∧ name ∉ tableName :: s.asked
    rw [hstats name, if_neg hrefresh, hs name, List.mem_cons, not_or, and_left_comm]

theorem step_cached {e : Event} (hs : Cached form s) (h : step form s e = .ok s') :
    Cached form s' := by
  cases e with
  | create trow frows =>
    cases h
    exact hs
  | insert tableName block slot row =>
    cases h
    exact hs
  | delete tableName i =>
    cases h
    exact hs
  | getStatInfo tableName =>
    obtain ⟨⟨info, s₁⟩, hcall, h⟩ := bind_eq_ok.mp h
    cases h
    exact call_cached hs hcall

theorem liveStats_ne_unset (db : Db) (tableName : Name) :
    liveStats form db tableName ≠ .unset := by
  intro h
  cases h

/-- A call is sound unless the table is new to the cache. -/
theorem sound_iff (hname : tableName ∈ tableNames form s.db) :
    Sound form s tableName ↔ s.mgr.tableStats tableName ≠ none ∨ 100 ≤ s.mgr.numCalls := by
  obtain ⟨info, m', db', hget, hinfo⟩ := getStatInfo_eq (m := s.mgr) hname
  obtain ⟨s', hcall⟩ : ∃ s', call form tableName s = .ok (info, s') := by
    unfold call
    rw [hget]
    by_cases hrefresh : 100 < s.mgr.numCalls + 1
    · exact ⟨_, if_pos hrefresh⟩
    · exact ⟨_, if_neg hrefresh⟩
  by_cases hnew : s.mgr.tableStats tableName = none ∧ s.mgr.numCalls < 100
  · rw [if_pos hnew] at hinfo
    constructor
    · rintro ⟨i, s₁, hcall', hi⟩
      cases hcall.symm.trans hcall'
      rw [hinfo] at hi
      exact hi.elim (fun h => absurd h.symm (liveStats_ne_unset _ _))
        (fun h => absurd h.symm (liveStats_ne_unset _ _))
    · rintro (hne | hle)
      · exact absurd hnew.1 hne
      · omega
  · rw [if_neg hnew] at hinfo
    refine ⟨fun _ => ?_, fun _ => ⟨info, s', hcall, Or.inl hinfo⟩⟩
    by_cases hnone : s.mgr.tableStats tableName = none
    · exact Or.inr (Nat.le_of_not_lt (fun hlt => hnew ⟨hnone, hlt⟩))
    · exact Or.inl hnone

/-- In every state of a history a call is sound exactly for what the cache has, or when it
refreshes. -/
theorem stats_sound_iff {s₀ : State} {events : List Event} (hstart : start form db = .ok s₀)
    (hrun : Run (fun s e s' => step form s e = .ok s') s₀ events s)
    (hname : tableName ∈ tableNames form s.db) :
    Sound form s tableName ↔ Known form s tableName := by
  have hcached : Cached form s :=
    hrun.invariant (Cached form) (fun s e s' hs h => step_cached hs h) (start_cached hstart)
  rw [sound_iff hname, Ne, hcached tableName]
  unfold Known
  rw [not_and_or, not_not, not_not, or_assoc]

/-- Four slots in a block. -/
def fourSlots : Form Row := ⟨4, by decide, fun _ => .null⟩

/-- The record of a table in `tblcat`. -/
def catalogRow (tableName : Name) : Row := fun fieldName =>
  if fieldName = "tblname".toList then .ofString tableName else .null

/-- A new table, of which there is no record. -/
theorem created : ∃ s₀ s, start (fun _ => fourSlots) (fun _ => []) = .ok s₀ ∧
    step (fun _ => fourSlots) s₀ (.create (catalogRow ['t']) []) = .ok s ∧
      ['t'] ∈ tableNames (fun _ => fourSlots) s.db ∧ s.mgr.tableStats ['t'] = none ∧
        s.mgr.numCalls = 0 :=
  ⟨_, _, rfl, rfl, by decide, rfl, rfl⟩

theorem asked : ∃ s₀ s₁ s₂, start (fun _ => fourSlots) (fun _ => []) = .ok s₀ ∧
    step (fun _ => fourSlots) s₀ (.create (catalogRow ['t']) []) = .ok s₁ ∧
      step (fun _ => fourSlots) s₁ (.getStatInfo ['t']) = .ok s₂ ∧
        ['t'] ∈ tableNames (fun _ => fourSlots) s₂.db ∧ ['t'] ∈ s₂.asked :=
  ⟨_, _, _, rfl, rfl, rfl, by decide, by decide⟩

/-- The second call for a new table is sound. -/
theorem stats_sound_second : ∃ s, Sound (fun _ => fourSlots) s ['t'] ∧
    ['t'] ∈ tableNames (fun _ => fourSlots) s.db := by
  obtain ⟨s₀, s₁, s₂, hstart, hcreate, hget, hname, hasked⟩ := asked
  have hrun : Run (fun s e s' => step (fun _ => fourSlots) s e = .ok s') s₀
      [.create (catalogRow ['t']) [], .getStatInfo ['t']] s₂ :=
    .cons hcreate (.cons hget (.nil s₂))
  exact ⟨s₂, (stats_sound_iff hstart hrun hname).mpr (Or.inr (Or.inl hasked)), hname⟩

/-- The first one is not. -/
theorem not_sound_first : ¬ ∀ (form : Name → Form Row) (db : Db) (s₀ s : State)
    (events : List Event) (tableName : Name), start form db = .ok s₀ →
      Run (fun s e s' => step form s e = .ok s') s₀ events s →
        tableName ∈ tableNames form s.db → Sound form s tableName := by
  intro h
  obtain ⟨s₀, s, hstart, hcreate, hname, hnone, hcalls⟩ := created
  have hsound := h _ _ s₀ s _ ['t'] hstart (.cons hcreate (.nil s)) hname
  rcases (sound_iff hname).mp hsound with hne | hle
  · exact hne hnone
  · omega

end Runs

end SampleDB.Statistics
