import SampleDB.Acceptance

/-!
What the parser accepts as an update command.
-/
namespace SampleDB.Acceptance

open Parsing Lexer Schemas Statements Grammar SqlParser

variable (overflow : ℕ → Option Int32)

section Commands

variable {toks rest : List Token}

theorem eatKeyword_ok {t : Token} {word : Token} (h : Keyword word t) :
    eatKeyword word (t :: rest) = .ok ((), rest) :=
  eatKeyword_iff.mpr ⟨t, rfl, h⟩

theorem eatDelimiter_ok {t : Token} {delim : Char} (hd : delim.isAlphanum = false)
    (h : (parsed overflow).delimiter delim t) : eatDelimiter delim (t :: rest) = .ok ((), rest) :=
  (eatDelimiter_iff overflow hd).mpr ⟨t, rfl, h⟩

theorem eatIdentifier_ok {t : Token} {name : Name} (h : Identifier t name) :
    eatIdentifier (t :: rest) = .ok (name, rest) :=
  eatIdentifier_iff.mpr ⟨t, rfl, h⟩

theorem fieldList_eq_ok {fields : List Name} : fieldList toks = .ok (fields, rest) ↔
    ∃ ts, toks = ts ++ rest ∧ CommaList (parsed overflow) FieldName ts fields ∧
      Stops ((parsed overflow).delimiter Word.comma) rest := by
  rw [← matchDelimiter_eq_false overflow (by decide)]
  exact commaList_eq_ok overflow fieldName_reads (fun _ _ => fieldName_ne_nil) (Nat.le_refl _)

theorem constantList_eq_ok {values : List Constant} :
    constantList overflow toks = .ok (values, rest) ↔
      ∃ ts, toks = ts ++ rest ∧ CommaList (parsed overflow)
        (fun ts c => ∃ t, ts = [t] ∧ IsConstant (parsedLiterals overflow) t c) ts values ∧
        Stops ((parsed overflow).delimiter Word.comma) rest := by
  rw [← matchDelimiter_eq_false overflow (by decide)]
  refine commaList_eq_ok overflow ?_ ?_ (Nat.le_refl _)
  · intro toks c rest _
    rw [constant_iff]
    constructor
    · rintro ⟨t, rfl, ht⟩
      exact ⟨[t], rfl, t, rfl, ht⟩
    · rintro ⟨ts, rfl, t, rfl, ht⟩
      exact ⟨t, rfl, ht⟩
  · rintro ts c ⟨t, rfl, -⟩
    exact List.cons_ne_nil t []

theorem not_comma_of_rightParen {t : Token} (h : (parsed overflow).delimiter Word.rightParen t) :
    ¬ (parsed overflow).delimiter Word.comma t := by
  intro hc
  exact absurd (Option.some.inj (h.symm.trans hc)) (by decide)

theorem filter_ends {ws : List Token} {pred : Predicate} {wl : Option Last}
    (h : WhereClause (parsed overflow) .filter ws pred wl) :
    Stops (Reach overflow Word.whereWord wl) rest ↔
      Stops (Continues (parsed overflow) (wl.getD .unfiltered)) rest := by
  rw [ends_iff]
  rcases h.last_cases with rfl | rfl <;> simp [Reach, Own, later, Stops]

theorem stops_closed : Stops (Continues (parsed overflow) .closed) rest := by
  rintro t - (hown | ⟨word, hword, -⟩)
  · exact hown
  · cases hword

theorem remove_eq_ok {data : DeleteData} : remove overflow toks = .ok (data, rest) ↔
    ∃ ts last, toks = ts ++ rest ∧ IsCommand (parsed overflow) ts (.delete data) last ∧
      Stops (Continues (parsed overflow) last) rest := by
  unfold remove
  constructor
  · intro h
    obtain ⟨_, toks₁, hdelete, h₁⟩ := bind_eq_ok.mp h
    obtain ⟨_, toks₂, hfrom, h₂⟩ := bind_eq_ok.mp h₁
    obtain ⟨tableName, toks₃, htable, h₃⟩ := bind_eq_ok.mp h₂
    obtain ⟨pred, toks₄, hwhere, h₄⟩ := bind_eq_ok.mp h₃
    obtain ⟨rfl, rfl⟩ := pure_eq_ok.mp h₄
    obtain ⟨d, rfl, hd⟩ := eatKeyword_iff.mp hdelete
    obtain ⟨f, rfl, hf⟩ := eatKeyword_iff.mp hfrom
    obtain ⟨t, rfl, ht⟩ := eatIdentifier_iff.mp htable
    obtain ⟨ws, wl, rfl, hws, hstop⟩ := (wherePredicate_eq_ok overflow .filter rfl).mp hwhere
    exact ⟨d :: f :: t :: ws, _, rfl, .delete hd hf ht hws, (filter_ends overflow hws).mp hstop⟩
  · rintro ⟨_, _, rfl, hcmd, hstop⟩
    cases hcmd with
    | @delete d f t ws tableName pred wl hd hf ht hws =>
      refine bind_eq_ok.mpr ⟨(), _, eatKeyword_ok hd, ?_⟩
      refine bind_eq_ok.mpr ⟨(), _, eatKeyword_ok hf, ?_⟩
      refine bind_eq_ok.mpr ⟨tableName, _, eatIdentifier_ok ht, ?_⟩
      refine bind_eq_ok.mpr ⟨pred, rest, (wherePredicate_eq_ok overflow .filter rfl).mpr
        ⟨ws, wl, rfl, hws, (filter_ends overflow hws).mpr hstop⟩, ?_⟩
      exact pure_eq_ok.mpr ⟨rfl, rfl⟩

theorem modify_eq_ok {data : ModifyData} : SqlParser.modify overflow toks = .ok (data, rest) ↔
    ∃ ts last, toks = ts ++ rest ∧ IsCommand (parsed overflow) ts (.modify data) last ∧
      Stops (Continues (parsed overflow) last) rest := by
  unfold SqlParser.modify
  constructor
  · intro h
    obtain ⟨_, toks₁, hupdate, h₁⟩ := bind_eq_ok.mp h
    obtain ⟨tableName, toks₂, htable, h₂⟩ := bind_eq_ok.mp h₁
    obtain ⟨_, toks₃, hset, h₃⟩ := bind_eq_ok.mp h₂
    obtain ⟨fdName, toks₄, hfield, h₄⟩ := bind_eq_ok.mp h₃
    obtain ⟨_, toks₅, hequal, h₅⟩ := bind_eq_ok.mp h₄
    obtain ⟨pred, toks₆, hwhere, h₆⟩ := bind_eq_ok.mp h₅
    obtain ⟨rfl, rfl⟩ := pure_eq_ok.mp h₆
    obtain ⟨u, rfl, hu⟩ := eatKeyword_iff.mp hupdate
    obtain ⟨t, rfl, ht⟩ := eatIdentifier_iff.mp htable
    obtain ⟨s, rfl, hs⟩ := eatKeyword_iff.mp hset
    obtain ⟨f, rfl, hf⟩ := eatIdentifier_iff.mp hfield
    obtain ⟨eq, rfl, heq⟩ := (eatDelimiter_iff overflow (by decide)).mp hequal
    obtain ⟨ws, wl, rfl, hws, hstop⟩ := (wherePredicate_eq_ok overflow .filter rfl).mp hwhere
    exact ⟨u :: t :: s :: f :: eq :: ([] ++ ws), _, rfl, .modify hu ht hs hf heq ⟨rfl, rfl⟩ hws,
      (filter_ends overflow hws).mp hstop⟩
  · rintro ⟨_, _, rfl, hcmd, hstop⟩
    cases hcmd with
    | @modify u t s f eq vs ws tableName fieldName newValue pred wl hu ht hs hf heq hvalue hws =>
      obtain ⟨rfl, rfl⟩ := hvalue
      refine bind_eq_ok.mpr ⟨(), _, eatKeyword_ok hu, ?_⟩
      refine bind_eq_ok.mpr ⟨tableName, _, eatIdentifier_ok ht, ?_⟩
      refine bind_eq_ok.mpr ⟨(), _, eatKeyword_ok hs, ?_⟩
      refine bind_eq_ok.mpr ⟨fieldName, _, eatIdentifier_ok hf, ?_⟩
      refine bind_eq_ok.mpr ⟨(), _, eatDelimiter_ok overflow (by decide) heq, ?_⟩
      refine bind_eq_ok.mpr ⟨pred, rest, (wherePredicate_eq_ok overflow .filter rfl).mpr
        ⟨ws, wl, rfl, hws, (filter_ends overflow hws).mpr hstop⟩, ?_⟩
      exact pure_eq_ok.mpr ⟨rfl, rfl⟩

theorem insert_eq_ok {data : InsertData} : SqlParser.insert overflow toks = .ok (data, rest) ↔
    ∃ ts last, toks = ts ++ rest ∧ IsCommand (parsed overflow) ts (.insert data) last ∧
      Stops (Continues (parsed overflow) last) rest := by
  have hend : ∀ {right rest'}, (parsed overflow).delimiter Word.rightParen right →
      Stops ((parsed overflow).delimiter Word.comma) (right :: rest') :=
    fun h => stops_cons.mpr (not_comma_of_rightParen overflow h)
  unfold SqlParser.insert
  constructor
  · intro h
    obtain ⟨_, toks₁, hinsert, h₁⟩ := bind_eq_ok.mp h
    obtain ⟨_, toks₂, hinto, h₂⟩ := bind_eq_ok.mp h₁
    obtain ⟨tableName, toks₃, htable, h₃⟩ := bind_eq_ok.mp h₂
    obtain ⟨_, toks₄, hleft, h₄⟩ := bind_eq_ok.mp h₃
    obtain ⟨fields, toks₅, hfields, h₅⟩ := bind_eq_ok.mp h₄
    obtain ⟨_, toks₆, hright, h₆⟩ := bind_eq_ok.mp h₅
    obtain ⟨_, toks₇, hvalues, h₇⟩ := bind_eq_ok.mp h₆
    obtain ⟨_, toks₈, hleft', h₈⟩ := bind_eq_ok.mp h₇
    obtain ⟨values, toks₉, hconstants, h₉⟩ := bind_eq_ok.mp h₈
    obtain ⟨_, toks₁₀, hright', h₁₀⟩ := bind_eq_ok.mp h₉
    obtain ⟨rfl, rfl⟩ := pure_eq_ok.mp h₁₀
    obtain ⟨i, rfl, hi⟩ := eatKeyword_iff.mp hinsert
    obtain ⟨o, rfl, ho⟩ := eatKeyword_iff.mp hinto
    obtain ⟨t, rfl, ht⟩ := eatIdentifier_iff.mp htable
    obtain ⟨left, rfl, hl⟩ := (eatDelimiter_iff overflow (by decide)).mp hleft
    obtain ⟨fs, rfl, hfs, -⟩ := (fieldList_eq_ok overflow).mp hfields
    obtain ⟨right, rfl, hr⟩ := (eatDelimiter_iff overflow (by decide)).mp hright
    obtain ⟨v, rfl, hv⟩ := eatKeyword_iff.mp hvalues
    obtain ⟨left', rfl, hl'⟩ := (eatDelimiter_iff overflow (by decide)).mp hleft'
    obtain ⟨vs, rfl, hvs, -⟩ := (constantList_eq_ok overflow).mp hconstants
    obtain ⟨right', rfl, hr'⟩ := (eatDelimiter_iff overflow (by decide)).mp hright'
    refine ⟨_, _, ?_, .insert hi ho ht hl hfs hr hv hl' hvs hr', stops_closed overflow⟩
    simp only [List.cons_append, List.append_assoc, List.nil_append]
  · rintro ⟨_, _, rfl, hcmd, -⟩
    cases hcmd with
    | @insert i o t left right v left' right' fs vs tableName fields values hi ho ht hl hfs hr hv
        hl' hvs hr' =>
      have hlist : i :: o :: t :: left :: (fs ++ right :: v :: left' :: (vs ++ [right'])) ++ rest =
          i :: o :: t :: left :: (fs ++ right :: v :: left' :: (vs ++ right' :: rest)) := by
        simp only [List.cons_append, List.append_assoc, List.nil_append]
      rw [hlist]
      refine bind_eq_ok.mpr ⟨(), _, eatKeyword_ok hi, ?_⟩
      refine bind_eq_ok.mpr ⟨(), _, eatKeyword_ok ho, ?_⟩
      refine bind_eq_ok.mpr ⟨tableName, _, eatIdentifier_ok ht, ?_⟩
      refine bind_eq_ok.mpr ⟨(), _, eatDelimiter_ok overflow (by decide) hl, ?_⟩
      refine bind_eq_ok.mpr ⟨fields, _, (fieldList_eq_ok overflow).mpr ⟨fs, rfl, hfs, hend hr⟩, ?_⟩
      refine bind_eq_ok.mpr ⟨(), _, eatDelimiter_ok overflow (by decide) hr, ?_⟩
      refine bind_eq_ok.mpr ⟨(), _, eatKeyword_ok hv, ?_⟩
      refine bind_eq_ok.mpr ⟨(), _, eatDelimiter_ok overflow (by decide) hl', ?_⟩
      refine bind_eq_ok.mpr ⟨values, _, (constantList_eq_ok overflow).mpr
        ⟨vs, rfl, hvs, hend hr'⟩, ?_⟩
      refine bind_eq_ok.mpr ⟨(), _, eatDelimiter_ok overflow (by decide) hr', ?_⟩
      exact pure_eq_ok.mpr ⟨rfl, rfl⟩

theorem fieldDefinition_reads {n : ℕ} : Reads n (fieldDefinition overflow) (fun ts schema =>
    ∃ d, FieldDefinition (parsed overflow) ts d ∧ schema = Schema.empty.addField d.1 d.2) := by
  intro toks schema rest _
  unfold fieldDefinition
  constructor
  · intro h
    obtain ⟨name, toks₁, hname, h₁⟩ := bind_eq_ok.mp h
    obtain ⟨f, rfl, hf⟩ := eatIdentifier_iff.mp hname
    unfold fieldType at h₁
    rw [get_bind] at h₁
    split at h₁
    · obtain ⟨_, toks₂, hint, h₂⟩ := bind_eq_ok.mp h₁
      obtain ⟨rfl, rfl⟩ := pure_eq_ok.mp h₂
      obtain ⟨t, rfl, ht⟩ := eatKeyword_iff.mp hint
      exact ⟨[f, t], rfl, (name, ⟨.integer, 0⟩),
        Or.inl ⟨f, t, rfl, hf, Or.inl ⟨ht, rfl⟩⟩, rfl⟩
    · rw [get_bind] at h₁
      split at h₁
      · obtain ⟨_, toks₂, hbool, h₂⟩ := bind_eq_ok.mp h₁
        obtain ⟨rfl, rfl⟩ := pure_eq_ok.mp h₂
        obtain ⟨t, rfl, ht⟩ := eatKeyword_iff.mp hbool
        exact ⟨[f, t], rfl, (name, ⟨.boolean, 0⟩),
          Or.inl ⟨f, t, rfl, hf, Or.inr ⟨ht, rfl⟩⟩, rfl⟩
      · obtain ⟨_, toks₂, hvarchar, h₂⟩ := bind_eq_ok.mp h₁
        obtain ⟨_, toks₃, hleft, h₃⟩ := bind_eq_ok.mp h₂
        obtain ⟨len, toks₄, hlen, h₄⟩ := bind_eq_ok.mp h₃
        obtain ⟨_, toks₅, hright, h₅⟩ := bind_eq_ok.mp h₄
        obtain ⟨rfl, rfl⟩ := pure_eq_ok.mp h₅
        obtain ⟨t, rfl, ht⟩ := eatKeyword_iff.mp hvarchar
        obtain ⟨left, rfl, hl⟩ := (eatDelimiter_iff overflow (by decide)).mp hleft
        obtain ⟨n, rfl, hn⟩ := (eatInteger_iff overflow).mp hlen
        obtain ⟨right, rfl, hr⟩ := (eatDelimiter_iff overflow (by decide)).mp hright
        exact ⟨[f, t, left, n, right], rfl, (name, ⟨.varchar, len⟩),
          Or.inr ⟨f, t, left, n, right, len, rfl, hf, ht, hl, hn, hr, rfl⟩, rfl⟩
  · rintro ⟨ts, rfl, ⟨name, info⟩, hdef, rfl⟩
    have hbranch : ∀ {f : Token} {toks' : List Token}, Identifier f name →
        fieldType overflow name toks' = .ok (Schema.empty.addField name info, rest) →
        fieldDefinition overflow (f :: toks') = .ok (Schema.empty.addField name info, rest) :=
      fun hf hrest => bind_eq_ok.mpr ⟨name, _, eatIdentifier_ok hf, hrest⟩
    have hother : ∀ {t w w' : Token} {toks' : List Token}, Keyword w t → w ≠ w' →
        ¬ matchKeyword w' (t :: toks') = true :=
      fun ht hne hmatch => keyword_ne hne _ ht (matchKeyword_cons.mp hmatch)
    rcases hdef with ⟨f, t, rfl, hf, ⟨ht, hinfo⟩ | ⟨ht, hinfo⟩⟩ |
      ⟨f, t, left, n, right, len, rfl, hf, ht, hl, hn, hr, hinfo⟩
    · dsimp only at hinfo
      subst hinfo
      refine hbranch hf ?_
      show fieldType overflow name (t :: rest) = _
      unfold fieldType
      rw [get_bind, if_pos (matchKeyword_cons.mpr ht)]
      exact bind_eq_ok.mpr ⟨(), _, eatKeyword_ok ht, pure_eq_ok.mpr ⟨rfl, rfl⟩⟩
    · dsimp only at hinfo
      subst hinfo
      refine hbranch hf ?_
      show fieldType overflow name (t :: rest) = _
      unfold fieldType
      rw [get_bind, if_neg (hother ht (by decide)), get_bind, if_pos (matchKeyword_cons.mpr ht)]
      exact bind_eq_ok.mpr ⟨(), _, eatKeyword_ok ht, pure_eq_ok.mpr ⟨rfl, rfl⟩⟩
    · dsimp only at hinfo
      subst hinfo
      refine hbranch hf ?_
      show fieldType overflow name (t :: left :: n :: right :: rest) = _
      unfold fieldType
      rw [get_bind, if_neg (hother ht (by decide)), get_bind, if_neg (hother ht (by decide))]
      refine bind_eq_ok.mpr ⟨(), _, eatKeyword_ok ht, ?_⟩
      refine bind_eq_ok.mpr ⟨(), _, eatDelimiter_ok overflow (by decide) hl, ?_⟩
      refine bind_eq_ok.mpr ⟨len, _, (eatInteger_iff overflow).mpr ⟨n, rfl, hn⟩, ?_⟩
      refine bind_eq_ok.mpr ⟨(), _, eatDelimiter_ok overflow (by decide) hr, ?_⟩
      exact pure_eq_ok.mpr ⟨rfl, rfl⟩

theorem addSchemas_map (defs : List (Name × FieldInfo)) :
    addSchemas (defs.map (fun d => Schema.empty.addField d.1 d.2)) = Schema.ofFields defs := by
  induction defs with
  | nil => rfl
  | cons d defs ih =>
    cases defs with
    | nil => rfl
    | cons d' defs =>
      have hcons : addSchemas ((d :: d' :: defs).map (fun d => Schema.empty.addField d.1 d.2)) =
          (Schema.empty.addField d.1 d.2).addAll
            (addSchemas ((d' :: defs).map (fun d => Schema.empty.addField d.1 d.2))) := rfl
      rw [hcons, ih, Schema.addAll_ofFields]
      rfl

theorem fieldDefinitionList_eq_ok {schema : Schema} :
    fieldDefinitionList overflow toks = .ok (schema, rest) ↔
      ∃ ts defs, toks = ts ++ rest ∧
        CommaList (parsed overflow) (FieldDefinition (parsed overflow)) ts defs ∧
        schema = Schema.ofFields defs ∧ Stops ((parsed overflow).delimiter Word.comma) rest := by
  have hlist : ∀ schemas rest, commaList (fieldDefinition overflow) toks = .ok (schemas, rest) ↔
      ∃ ts, toks = ts ++ rest ∧ CommaList (parsed overflow) (fun ts schema =>
        ∃ d, FieldDefinition (parsed overflow) ts d ∧ schema = Schema.empty.addField d.1 d.2) ts
          schemas ∧
        matchDelimiter Word.comma rest = false := by
    intro schemas rest
    refine commaList_eq_ok overflow (fieldDefinition_reads overflow) ?_ (Nat.le_refl _)
    rintro ts schema ⟨d, ⟨f, t, rfl, -⟩ | ⟨f, t, left, n, right, len, rfl, -⟩, -⟩
    · exact List.cons_ne_nil f _
    · exact List.cons_ne_nil f _
  unfold fieldDefinitionList
  constructor
  · intro h
    obtain ⟨schemas, mid, hschemas, hret⟩ := bind_eq_ok.mp h
    obtain ⟨rfl, rfl⟩ := pure_eq_ok.mp hret
    obtain ⟨ts, rfl, hts, hstop⟩ := (hlist schemas mid).mp hschemas
    obtain ⟨defs, hdefs, rfl⟩ := (separated_map _).mp hts
    exact ⟨ts, defs, rfl, hdefs, addSchemas_map defs,
      (matchDelimiter_eq_false overflow (by decide)).mp hstop⟩
  · rintro ⟨ts, defs, rfl, hdefs, rfl, hstop⟩
    refine bind_eq_ok.mpr ⟨_, rest, (hlist _ rest).mpr ⟨ts, rfl, (separated_map _).mpr
      ⟨defs, hdefs, rfl⟩, (matchDelimiter_eq_false overflow (by decide)).mpr hstop⟩, ?_⟩
    exact pure_eq_ok.mpr ⟨addSchemas_map defs, rfl⟩

/-- The three CREATE commands have their first word in common. -/
theorem createTable_eq_ok {c : Token} (hc : Keyword Word.createWord c) {data : CreateTableData} :
    createTable overflow toks = .ok (data, rest) ↔
      ∃ ts last, c :: toks = ts ++ rest ∧
        IsCommand (parsed overflow) ts (.createTable data) last ∧
        Stops (Continues (parsed overflow) last) rest := by
  unfold createTable
  constructor
  · intro h
    obtain ⟨_, toks₁, htable, h₁⟩ := bind_eq_ok.mp h
    obtain ⟨tableName, toks₂, hname, h₂⟩ := bind_eq_ok.mp h₁
    obtain ⟨_, toks₃, hleft, h₃⟩ := bind_eq_ok.mp h₂
    obtain ⟨schema, toks₄, hdefs, h₄⟩ := bind_eq_ok.mp h₃
    obtain ⟨_, toks₅, hright, h₅⟩ := bind_eq_ok.mp h₄
    obtain ⟨rfl, rfl⟩ := pure_eq_ok.mp h₅
    obtain ⟨w, rfl, hw⟩ := eatKeyword_iff.mp htable
    obtain ⟨t, rfl, ht⟩ := eatIdentifier_iff.mp hname
    obtain ⟨left, rfl, hl⟩ := (eatDelimiter_iff overflow (by decide)).mp hleft
    obtain ⟨ds, defs, rfl, hds, rfl, -⟩ := (fieldDefinitionList_eq_ok overflow).mp hdefs
    obtain ⟨right, rfl, hr⟩ := (eatDelimiter_iff overflow (by decide)).mp hright
    refine ⟨_, _, ?_, .createTable hc hw ht hl hds hr, stops_closed overflow⟩
    simp only [List.cons_append, List.append_assoc, List.nil_append]
  · rintro ⟨_, _, hlist, hcmd, -⟩
    cases hcmd with
    | @createTable c' w t left right ds tableName defs _ hw ht hl hds hr =>
      simp only [List.cons_append, List.append_assoc, List.nil_append, List.cons.injEq] at hlist
      obtain ⟨rfl, rfl⟩ := hlist
      refine bind_eq_ok.mpr ⟨(), _, eatKeyword_ok hw, ?_⟩
      refine bind_eq_ok.mpr ⟨tableName, _, eatIdentifier_ok ht, ?_⟩
      refine bind_eq_ok.mpr ⟨(), _, eatDelimiter_ok overflow (by decide) hl, ?_⟩
      refine bind_eq_ok.mpr
        ⟨_, _, (fieldDefinitionList_eq_ok overflow).mpr ⟨ds, defs, rfl, hds, rfl,
        stops_cons.mpr (not_comma_of_rightParen overflow hr)⟩, ?_⟩
      refine bind_eq_ok.mpr ⟨(), _, eatDelimiter_ok overflow (by decide) hr, ?_⟩
      exact pure_eq_ok.mpr ⟨rfl, rfl⟩

theorem createView_eq_ok {c : Token} (hc : Keyword Word.createWord c) {data : CreateViewData} :
    createView overflow toks = .ok (data, rest) ↔
      ∃ ts last, c :: toks = ts ++ rest ∧
        IsCommand (parsed overflow) ts (.createView data) last ∧
        Stops (Continues (parsed overflow) last) rest := by
  unfold createView
  constructor
  · intro h
    obtain ⟨_, toks₁, hview, h₁⟩ := bind_eq_ok.mp h
    obtain ⟨viewName, toks₂, hname, h₂⟩ := bind_eq_ok.mp h₁
    obtain ⟨_, toks₃, has, h₃⟩ := bind_eq_ok.mp h₂
    obtain ⟨q, toks₄, hquery, h₄⟩ := bind_eq_ok.mp h₃
    obtain ⟨rfl, rfl⟩ := pure_eq_ok.mp h₄
    obtain ⟨w, rfl, hw⟩ := eatKeyword_iff.mp hview
    obtain ⟨t, rfl, ht⟩ := eatIdentifier_iff.mp hname
    obtain ⟨a, rfl, ha⟩ := eatKeyword_iff.mp has
    obtain ⟨qs, last, rfl, hq, hstop⟩ := (query_eq_ok overflow).mp hquery
    exact ⟨c :: w :: t :: a :: qs, last, rfl, .createView hc hw ht ha hq, hstop⟩
  · rintro ⟨_, _, hlist, hcmd, hstop⟩
    cases hcmd with
    | @createView c' w t a qs viewName q last _ hw ht ha hq =>
      simp only [List.cons_append, List.cons.injEq] at hlist
      obtain ⟨rfl, rfl⟩ := hlist
      refine bind_eq_ok.mpr ⟨(), _, eatKeyword_ok hw, ?_⟩
      refine bind_eq_ok.mpr ⟨viewName, _, eatIdentifier_ok ht, ?_⟩
      refine bind_eq_ok.mpr ⟨(), _, eatKeyword_ok ha, ?_⟩
      refine bind_eq_ok.mpr ⟨q, rest, (query_eq_ok overflow).mpr ⟨qs, _, rfl, hq, hstop⟩, ?_⟩
      exact pure_eq_ok.mpr ⟨rfl, rfl⟩

theorem createIndex_eq_ok {c : Token} (hc : Keyword Word.createWord c) {data : CreateIndexData} :
    createIndex toks = .ok (data, rest) ↔
      ∃ ts last, c :: toks = ts ++ rest ∧
        IsCommand (parsed overflow) ts (.createIndex data) last ∧
        Stops (Continues (parsed overflow) last) rest := by
  unfold createIndex
  constructor
  · intro h
    obtain ⟨_, toks₁, hindex, h₁⟩ := bind_eq_ok.mp h
    obtain ⟨indexName, toks₂, hname, h₂⟩ := bind_eq_ok.mp h₁
    obtain ⟨_, toks₃, hon, h₃⟩ := bind_eq_ok.mp h₂
    obtain ⟨tableName, toks₄, htable, h₄⟩ := bind_eq_ok.mp h₃
    obtain ⟨_, toks₅, hleft, h₅⟩ := bind_eq_ok.mp h₄
    obtain ⟨fdName, toks₆, hfield, h₆⟩ := bind_eq_ok.mp h₅
    obtain ⟨_, toks₇, hright, h₇⟩ := bind_eq_ok.mp h₆
    obtain ⟨rfl, rfl⟩ := pure_eq_ok.mp h₇
    obtain ⟨w, rfl, hw⟩ := eatKeyword_iff.mp hindex
    obtain ⟨i, rfl, hi⟩ := eatIdentifier_iff.mp hname
    obtain ⟨o, rfl, ho⟩ := eatKeyword_iff.mp hon
    obtain ⟨t, rfl, ht⟩ := eatIdentifier_iff.mp htable
    obtain ⟨left, rfl, hl⟩ := (eatDelimiter_iff overflow (by decide)).mp hleft
    obtain ⟨f, rfl, hf⟩ := eatIdentifier_iff.mp hfield
    obtain ⟨right, rfl, hr⟩ := (eatDelimiter_iff overflow (by decide)).mp hright
    exact ⟨[c, w, i, o, t, left, f, right], _, rfl, .createIndex hc hw hi ho ht hl hf hr,
      stops_closed overflow⟩
  · rintro ⟨_, _, hlist, hcmd, -⟩
    cases hcmd with
    | @createIndex c' w i o t left f right indexName tableName fieldName _ hw hi ho ht hl hf hr =>
      simp only [List.cons_append, List.nil_append, List.cons.injEq] at hlist
      obtain ⟨rfl, rfl⟩ := hlist
      refine bind_eq_ok.mpr ⟨(), _, eatKeyword_ok hw, ?_⟩
      refine bind_eq_ok.mpr ⟨indexName, _, eatIdentifier_ok hi, ?_⟩
      refine bind_eq_ok.mpr ⟨(), _, eatKeyword_ok ho, ?_⟩
      refine bind_eq_ok.mpr ⟨tableName, _, eatIdentifier_ok ht, ?_⟩
      refine bind_eq_ok.mpr ⟨(), _, eatDelimiter_ok overflow (by decide) hl, ?_⟩
      refine bind_eq_ok.mpr ⟨fieldName, _, eatIdentifier_ok hf, ?_⟩
      refine bind_eq_ok.mpr ⟨(), _, eatDelimiter_ok overflow (by decide) hr, ?_⟩
      exact pure_eq_ok.mpr ⟨rfl, rfl⟩

theorem map_eq_ok {α β : Type} {p : Parse α} {f : α → β} {y : β} :
    (do return f (← p) : Parse β) toks = .ok (y, rest) ↔
      ∃ x, p toks = .ok (x, rest) ∧ f x = y := by
  constructor
  · intro h
    obtain ⟨x, mid, hp, hret⟩ := bind_eq_ok.mp h
    obtain ⟨rfl, rfl⟩ := pure_eq_ok.mp hret
    exact ⟨x, hp, rfl⟩
  · rintro ⟨x, hp, rfl⟩
    exact bind_eq_ok.mpr ⟨x, rest, hp, pure_eq_ok.mpr ⟨rfl, rfl⟩⟩

theorem create_eq_ok {cmd : Command} : create overflow toks = .ok (cmd, rest) ↔
    ∃ ts last, toks = ts ++ rest ∧ IsCommand (parsed overflow) ts cmd last ∧
      Stops (Continues (parsed overflow) last) rest ∧ firstWord cmd = Word.createWord := by
  unfold create
  constructor
  · intro h
    obtain ⟨_, toks₁, hcreate, h₁⟩ := bind_eq_ok.mp h
    obtain ⟨c, rfl, hc⟩ := eatKeyword_iff.mp hcreate
    rw [get_bind] at h₁
    split at h₁
    · obtain ⟨data, hdata, rfl⟩ := map_eq_ok.mp h₁
      obtain ⟨ts, last, hlist, hcmd, hstop⟩ := (createTable_eq_ok overflow hc).mp hdata
      exact ⟨ts, last, hlist, hcmd, hstop, rfl⟩
    · rw [get_bind] at h₁
      split at h₁
      · obtain ⟨data, hdata, rfl⟩ := map_eq_ok.mp h₁
        obtain ⟨ts, last, hlist, hcmd, hstop⟩ := (createView_eq_ok overflow hc).mp hdata
        exact ⟨ts, last, hlist, hcmd, hstop, rfl⟩
      · obtain ⟨data, hdata, rfl⟩ := map_eq_ok.mp h₁
        obtain ⟨ts, last, hlist, hcmd, hstop⟩ := (createIndex_eq_ok overflow hc).mp hdata
        exact ⟨ts, last, hlist, hcmd, hstop, rfl⟩
  · rintro ⟨ts, last, rfl, hcmd, hstop, hfirst⟩
    have hword : ∀ {t w w' : Token} {rest' : List Token}, Keyword w t → w ≠ w' →
        ¬ matchKeyword w' (t :: rest') = true :=
      fun ht hne hmatch => keyword_ne hne _ ht (matchKeyword_cons.mp hmatch)
    have hcmd' := hcmd
    cases hcmd with
    | insert => exact absurd hfirst (show Word.insertWord ≠ Word.createWord by decide)
    | delete => exact absurd hfirst (show Word.deleteWord ≠ Word.createWord by decide)
    | modify => exact absurd hfirst (show Word.updateWord ≠ Word.createWord by decide)
    | @createTable c w t left right ds tableName defs hc hw =>
      rw [List.cons_append, List.cons_append]
      refine bind_eq_ok.mpr ⟨(), _, eatKeyword_ok hc, ?_⟩
      rw [get_bind, if_pos (matchKeyword_cons.mpr hw)]
      exact map_eq_ok.mpr ⟨_, (createTable_eq_ok overflow hc).mpr ⟨_, _, rfl, hcmd', hstop⟩, rfl⟩
    | @createView c w t a qs viewName q last hc hw =>
      rw [List.cons_append, List.cons_append]
      refine bind_eq_ok.mpr ⟨(), _, eatKeyword_ok hc, ?_⟩
      rw [get_bind, if_neg (hword hw (by decide)), get_bind,
        if_pos (matchKeyword_cons.mpr hw)]
      exact map_eq_ok.mpr ⟨_, (createView_eq_ok overflow hc).mpr ⟨_, _, rfl, hcmd', hstop⟩, rfl⟩
    | @createIndex c w i o t left f right indexName tableName fieldName hc hw =>
      rw [List.cons_append, List.cons_append]
      refine bind_eq_ok.mpr ⟨(), _, eatKeyword_ok hc, ?_⟩
      rw [get_bind, if_neg (hword hw (by decide)), get_bind,
        if_neg (hword hw (by decide))]
      exact map_eq_ok.mpr ⟨_, (createIndex_eq_ok overflow hc).mpr ⟨_, _, rfl, hcmd', hstop⟩, rfl⟩

/-- What `updateCmd` accepts, and where it stops. -/
theorem updateCmd_eq_ok {cmd : Command} : updateCmd overflow toks = .ok (cmd, rest) ↔
    ∃ ts last, toks = ts ++ rest ∧ IsCommand (parsed overflow) ts cmd last ∧
      Stops (Continues (parsed overflow) last) rest := by
  unfold updateCmd
  rw [get_bind]
  constructor
  · intro h
    split at h
    · obtain ⟨data, hdata, rfl⟩ := map_eq_ok.mp h
      exact (insert_eq_ok overflow).mp hdata
    · rw [get_bind] at h
      split at h
      · obtain ⟨data, hdata, rfl⟩ := map_eq_ok.mp h
        exact (remove_eq_ok overflow).mp hdata
      · rw [get_bind] at h
        split at h
        · obtain ⟨data, hdata, rfl⟩ := map_eq_ok.mp h
          exact (modify_eq_ok overflow).mp hdata
        · obtain ⟨ts, last, hlist, hcmd, hstop, -⟩ := (create_eq_ok overflow).mp h
          exact ⟨ts, last, hlist, hcmd, hstop⟩
  · rintro ⟨ts, last, rfl, hcmd, hstop⟩
    obtain ⟨t, ts', hcons, ht⟩ := hcmd.first
    have hyes : ∀ w, firstWord cmd = w → matchKeyword w (ts ++ rest) = true := by
      rintro w rfl
      rw [hcons, List.cons_append]
      exact matchKeyword_cons.mpr ht
    have hno : ∀ w w', firstWord cmd = w → w ≠ w' → ¬ matchKeyword w' (ts ++ rest) = true := by
      rintro w w' rfl hne hmatch
      rw [hcons, List.cons_append] at hmatch
      exact keyword_ne hne t ht (matchKeyword_cons.mp hmatch)
    have hgiven : ∃ ts' last', ts ++ rest = ts' ++ rest ∧
      IsCommand (parsed overflow) ts' cmd last' ∧
        Stops (Continues (parsed overflow) last') rest := ⟨ts, last, rfl, hcmd, hstop⟩
    cases cmd with
    | insert data =>
      rw [if_pos (hyes Word.insertWord rfl)]
      exact map_eq_ok.mpr ⟨data, (insert_eq_ok overflow).mpr hgiven, rfl⟩
    | delete data =>
      rw [if_neg (hno Word.deleteWord _ rfl (by decide)), get_bind,
        if_pos (hyes Word.deleteWord rfl)]
      exact map_eq_ok.mpr ⟨data, (remove_eq_ok overflow).mpr hgiven, rfl⟩
    | modify data =>
      rw [if_neg (hno Word.updateWord _ rfl (by decide)), get_bind,
        if_neg (hno Word.updateWord _ rfl (by decide)), get_bind,
        if_pos (hyes Word.updateWord rfl)]
      exact map_eq_ok.mpr ⟨data, (modify_eq_ok overflow).mpr hgiven, rfl⟩
    | _ =>
      rw [if_neg (hno Word.createWord _ rfl (by decide)), get_bind,
        if_neg (hno Word.createWord _ rfl (by decide)), get_bind,
        if_neg (hno Word.createWord _ rfl (by decide))]
      exact (create_eq_ok overflow).mpr ⟨ts, last, rfl, hcmd, hstop, rfl⟩

end Commands

end SampleDB.Acceptance
