import DimosViewer.Path.ShortNames

/-!
# Who is named

An entity whose name is overwritten is lost for good, so all entities are named exactly if
nothing is overwritten, and that is so if no part contains a slash: then a name says which
parts it is made of, and whoever has been moved to a longer name has left a bad one behind.
-/

namespace DimosViewer.EntityPath

-- ---------------------------------------------------------------------------
-- Who bears a name
-- ---------------------------------------------------------------------------

section Bears

variable {names : StrToEntities} {s : ShortenedEntity} {e : EntityPath}

def Bears (names : StrToEntities) (e : EntityPath) : Prop :=
  ∃ label s, names.lookup label = some s ∧ s.entity = e

def Once (names : StrToEntities) : Prop :=
  ∀ label label' s s', names.lookup label = some s → names.lookup label' = some s' →
    s.entity = s'.entity → label = label'

theorem bears_of_insert (h : Bears (names.insert label s) e) : e = s.entity ∨ Bears names e := by
  obtain ⟨label', s', hs', he⟩ := h
  by_cases hl : label' = label
  · subst hl
    rw [AList.lookup_insert, Option.some.injEq] at hs'
    exact .inl (by rw [hs', he])
  · rw [AList.lookup_insert_ne hl] at hs'
    exact .inr ⟨label', s', hs', he⟩

theorem bears_insert_self : Bears (names.insert label s) s.entity :=
  ⟨label, s, AList.lookup_insert names, rfl⟩

theorem bears_insert_of_free (hfree : label ∉ names) (h : Bears names e) :
    Bears (names.insert label s) e := by
  obtain ⟨label', s', hs', he⟩ := h
  have hl : label' ≠ label := by
    rintro rfl
    exact hfree (AList.lookup_isSome.mp (by rw [hs']; rfl))
  exact ⟨label', s', by rwa [AList.lookup_insert_ne hl], he⟩

theorem Once.insert (h : Once names) (hs : ¬ Bears names s.entity) :
    Once (names.insert label s) := by
  intro l l' t t' ht ht' he
  by_cases hl : l = label
  · by_cases hl' : l' = label
    · rw [hl, hl']
    · subst hl
      rw [AList.lookup_insert, Option.some.injEq] at ht
      rw [AList.lookup_insert_ne hl'] at ht'
      exact absurd ⟨l', t', ht', by rw [← he, ht]⟩ hs
  · rw [AList.lookup_insert_ne hl] at ht
    by_cases hl' : l' = label
    · subst hl'
      rw [AList.lookup_insert, Option.some.injEq] at ht'
      exact absurd ⟨l, t, ht, by rw [he, ht']⟩ hs
    · rw [AList.lookup_insert_ne hl'] at ht'
      exact h l l' t t' ht ht' he

theorem Once.lost (h : Once names) (hlabel : label ∈ names) (hs : ¬ Bears names s.entity) :
    ∃ e, Bears names e ∧ ¬ Bears (names.insert label s) e := by
  obtain ⟨other, hother⟩ := Option.isSome_iff_exists.mp (AList.lookup_isSome.mpr hlabel)
  refine ⟨other.entity, ⟨label, other, hother, rfl⟩, ?_⟩
  rintro ⟨l, t, ht, he⟩
  by_cases hl : l = label
  · subst hl
    rw [AList.lookup_insert, Option.some.injEq] at ht
    exact hs (by rw [ht, he]; exact ⟨l, other, hother, rfl⟩)
  · rw [AList.lookup_insert_ne hl] at ht
    exact hl (h l label t other ht hother he)

theorem lookup_of_erase (h : (names.erase label).lookup l = some s) :
    l ≠ label ∧ names.lookup l = some s := by
  by_cases hl : l = label
  · subst hl
    rw [AList.lookup_erase] at h
    cases h
  · rw [AList.lookup_erase_ne hl] at h
    exact ⟨hl, h⟩

theorem Once.erase (h : Once names) (label : String) : Once (names.erase label) :=
  fun l l' t t' ht ht' => h l l' t t' (lookup_of_erase ht).2 (lookup_of_erase ht').2

theorem bears_of_erase (h : Bears (names.erase label) e) : Bears names e := by
  obtain ⟨l, t, ht, he⟩ := h
  exact ⟨l, t, (lookup_of_erase ht).2, he⟩

theorem Once.not_bears_erase (h : Once names) (hs : names.lookup label = some s) :
    ¬ Bears (names.erase label) s.entity := by
  rintro ⟨l, t, ht, he⟩
  obtain ⟨hl, ht⟩ := lookup_of_erase ht
  exact hl (h l label t s ht hs he)

theorem bears_erase (h : Bears names e) (hs : names.lookup label = some s) (he : e ≠ s.entity) :
    Bears (names.erase label) e := by
  obtain ⟨l, t, ht, rfl⟩ := h
  have hl : l ≠ label := by
    rintro rfl
    rw [hs, Option.some.injEq] at ht
    exact he (by rw [ht])
  exact ⟨l, t, by rwa [AList.lookup_erase_ne hl], rfl⟩

end Bears

-- ---------------------------------------------------------------------------
-- Who is lost
-- ---------------------------------------------------------------------------

section Lost

variable {names : StrToEntities} {bad : List String} {s : ShortenedEntity} {e : EntityPath}

theorem bears_of_lengthenExisting (h : Bears (lengthenExisting names label) e) : Bears names e := by
  rw [lengthenExisting] at h
  cases hs : names.lookup label with
  | none => rwa [hs] at h
  | some existing =>
    rw [hs] at h
    rcases bears_of_insert h with rfl | h
    · exact ⟨label, existing, hs, rfl⟩
    · exact bears_of_erase h

theorem Once.lengthenExisting (h : Once names) (label : String) :
    Once (lengthenExisting names label) := by
  rw [EntityPath.lengthenExisting]
  cases hs : names.lookup label with
  | none => exact h
  | some existing =>
    have hgone : ¬ Bears (names.erase label) existing.entity := h.not_bears_erase hs
    exact (h.erase label).insert hgone

theorem LengthensFreely.bears (hfree : LengthensFreely names label) (h : Bears names e) :
    Bears (lengthenExisting names label) e := by
  rw [lengthenExisting]
  cases hs : names.lookup label with
  | none => exact h
  | some existing =>
    by_cases he : e = existing.entity
    · rw [he]
      exact bears_insert_self
    · exact bears_insert_of_free (hfree existing hs) (bears_erase h hs he)

theorem Once.lost_lengthenExisting (h : Once names) (hfree : ¬ LengthensFreely names label) :
    ∃ e, Bears names e ∧ ¬ Bears (EntityPath.lengthenExisting names label) e := by
  simp only [LengthensFreely, not_forall, not_not] at hfree
  obtain ⟨existing, hs, hmem⟩ := hfree
  have hgone : ¬ Bears (names.erase label) existing.entity := h.not_bears_erase hs
  have hlonger : ¬ Bears (names.erase label) existing.longer.entity := hgone
  obtain ⟨e, he, hlost⟩ := (h.erase label).lost hmem hlonger
  refine ⟨e, bears_of_erase he, ?_⟩
  rw [EntityPath.lengthenExisting, hs]
  exact hlost

theorem Once.lengthensFreely_iff (h : Once names) :
    LengthensFreely names label ↔
      ∀ e, Bears names e → Bears (EntityPath.lengthenExisting names label) e := by
  refine ⟨fun hfree e => hfree.bears, fun hall => ?_⟩
  by_contra hfree
  obtain ⟨e, he, hlost⟩ := h.lost_lengthenExisting hfree
  exact hlost (hall e he)

theorem Once.disambiguate (h : Once names) (bad : List String) (s : ShortenedEntity) :
    Once (EntityPath.disambiguate names bad s).1 ∧
      (EntityPath.disambiguate names bad s).2.2.entity = s.entity ∧
      (∀ e, Bears (EntityPath.disambiguate names bad s).1 e → Bears names e) ∧
      (DisambiguatesFreely names bad s ↔
        ∀ e, Bears names e → Bears (EntityPath.disambiguate names bad s).1 e) := by
  fun_induction EntityPath.disambiguate names bad s with
  | case1 names bad s label hbad bad' names' hend =>
    refine ⟨h.lengthenExisting _, rfl, fun e => bears_of_lengthenExisting, ?_⟩
    rw [DisambiguatesFreely, ← h.lengthensFreely_iff]
    exact ⟨fun hfree => (hfree hbad).1, fun hfree _ => ⟨hfree, fun hne => absurd hend hne⟩⟩
  | case2 names bad s label hbad bad' names' hend ih =>
    obtain ⟨honce, hentity, hsub, hiff⟩ := ih (h.lengthenExisting _)
    refine ⟨honce, hentity, fun e he => bears_of_lengthenExisting (hsub e he), ?_⟩
    rw [DisambiguatesFreely]
    constructor
    · intro hfree e he
      obtain ⟨hlengthen, hrest⟩ := hfree hbad
      exact hiff.mp (hrest hend) e (hlengthen.bears he)
    · -- Whoever is left at the end was there in between.
      intro hall _
      refine ⟨h.lengthensFreely_iff.mpr fun e he => hsub e (hall e he), fun _ => ?_⟩
      exact hiff.mpr fun e he => hall e (bears_of_lengthenExisting he)
  | case3 names bad s label hbad =>
    refine ⟨h, rfl, fun e he => he, ?_⟩
    rw [DisambiguatesFreely]
    exact iff_of_true (fun hmem => absurd hmem hbad) fun e he => he

theorem Once.addShortened {state : StrToEntities × List String} (h : Once state.1)
    (hnew : ¬ Bears state.1 e) :
    Once (EntityPath.addShortened state e).1 ∧ Bears (EntityPath.addShortened state e).1 e ∧
      (∀ e', Bears (EntityPath.addShortened state e).1 e' → e' = e ∨ Bears state.1 e') ∧
      (AddsFreely state e ↔
        ∀ e', Bears state.1 e' → Bears (EntityPath.addShortened state e).1 e') := by
  obtain ⟨honce, hentity, hsub, hiff⟩ := h.disambiguate state.2 ⟨e, 1⟩
  rw [AddsFreely, hiff, EntityPath.addShortened]
  generalize EntityPath.disambiguate state.1 state.2 ⟨e, 1⟩ = done at honce hentity hsub
  have hentity : done.2.2.entity = e := hentity
  have hgone : ¬ Bears done.1 done.2.2.entity := fun hb => hnew (hentity ▸ hsub _ hb)
  refine ⟨honce.insert hgone, hentity ▸ ⟨_, _, AList.lookup_insert _, rfl⟩, fun e' he' => ?_, ?_⟩
  · exact (bears_of_insert he').imp (fun he => he.trans hentity) (hsub e')
  · constructor
    · rintro ⟨hall, hfree⟩ e' he'
      exact bears_insert_of_free hfree (hall e' he')
    · intro hall
      refine ⟨fun e' he' => ?_, fun hmem => ?_⟩
      · refine (bears_of_insert (hall e' he')).resolve_left fun he => hnew ?_
        rw [← hentity, ← he]
        exact he'
      · obtain ⟨e', he', hlost⟩ := honce.lost hmem hgone
        exact hlost (hall e' (hsub e' he'))

theorem nothingOverwritten_iff {state : StrToEntities × List String} {entities : List EntityPath}
    (h : Once state.1) (hnodup : entities.Nodup) (hnew : ∀ e ∈ entities, ¬ Bears state.1 e) :
    Once (entities.foldl addShortened state).1 ∧
      (∀ e, Bears (entities.foldl addShortened state).1 e → e ∈ entities ∨ Bears state.1 e) ∧
      (NothingOverwritten state entities ↔ ∀ e, e ∈ entities ∨ Bears state.1 e →
        Bears (entities.foldl addShortened state).1 e) := by
  induction entities generalizing state with
  | nil => exact ⟨h, fun e he => .inr he, iff_of_true trivial fun e he => by simpa using he⟩
  | cons e entities ih => ?_
  obtain ⟨hhead, hnodup⟩ := List.nodup_cons.mp hnodup
  obtain ⟨honce, hself, hsub, hiff⟩ := h.addShortened (hnew e List.mem_cons_self)
  have hnew' : ∀ e' ∈ entities, ¬ Bears (addShortened state e).1 e' := by
    intro e' he' hb
    rcases hsub e' hb with rfl | hb
    · exact hhead he'
    · exact hnew e' (List.mem_cons_of_mem e he') hb
  obtain ⟨honce', hsub', hiff'⟩ := ih honce hnodup hnew'
  refine ⟨honce', fun e' he' => ?_, ?_⟩
  · rcases hsub' e' he' with he' | he'
    · exact .inl (List.mem_cons_of_mem e he')
    · exact (hsub e' he').imp_left (by rintro rfl; exact List.mem_cons_self)
  · rw [NothingOverwritten, hiff, hiff', List.foldl_cons]
    constructor
    · rintro ⟨hstep, hrest⟩ e' he'
      refine hrest e' ?_
      rcases he' with he' | he'
      · rcases List.mem_cons.mp he' with rfl | he'
        · exact .inr hself
        · exact .inl he'
      · exact .inr (hstep e' he')
    · intro hall
      constructor
      · intro e' he'
        rcases hsub' e' (hall e' (.inr he')) with hm | hb
        · exact absurd he' (hnew e' (List.mem_cons_of_mem e hm))
        · exact hb
      · rintro e' (he' | he')
        · exact hall e' (.inl (List.mem_cons_of_mem e he'))
        · exact hall e' ((hsub e' he').imp_left (by rintro rfl; exact List.mem_cons_self))

end Lost

-- ---------------------------------------------------------------------------
-- Names that say which parts they are made of
-- ---------------------------------------------------------------------------

section Unambiguous

variable {all : List EntityPath} {names : StrToEntities} {bad : List String}
variable {s t : ShortenedEntity} {e : EntityPath}

/-- The name of one of the entities tells the parts that are used. -/
def Unambiguous (all : List EntityPath) : Prop :=
  ∀ s t : ShortenedEntity, s.entity ∈ all → t.entity ∈ all → 0 < s.numPart → 0 < t.numPart →
    s.uiString = t.uiString → s.lastParts = t.lastParts

theorem lastParts_of_le (h : s.entity.length ≤ s.numPart) : s.lastParts = s.entity := by
  rw [ShortenedEntity.lastParts, List.take_of_length_le (by rwa [List.length_reverse]),
    List.reverse_reverse]

theorem reverse_lastParts (s : ShortenedEntity) :
    s.lastParts.reverse = s.entity.reverse.take s.numPart := List.reverse_reverse _

theorem uiString_congr (h : s.lastParts = t.lastParts) (hs : s.entity ≠ []) (ht : t.entity ≠ []) :
    s.uiString = t.uiString := by
  simp [ShortenedEntity.uiString, hs, ht, h]

theorem shorter (h : (⟨e, j + 1⟩ : ShortenedEntity).lastParts = s.lastParts)
    (hlt : j < e.length) :
    j < s.numPart ∧ j < s.entity.length ∧
      (⟨e, j⟩ : ShortenedEntity).uiString = (⟨s.entity, j⟩ : ShortenedEntity).uiString := by
  have htake := congrArg List.reverse h
  rw [reverse_lastParts, reverse_lastParts] at htake
  have hlen := congrArg List.length htake
  simp only [List.length_take, List.length_reverse] at hlen
  have hshort := congrArg (List.take j) htake
  rw [List.take_take, List.take_take, Nat.min_eq_left (Nat.le_succ j)] at hshort
  have hj' : j < s.numPart ∧ j < s.entity.length := by omega
  rw [Nat.min_eq_left hj'.1.le] at hshort
  refine ⟨hj'.1, hj'.2, uiString_congr ?_ ?_ ?_⟩
  · exact congrArg List.reverse hshort
  · exact List.ne_nil_of_length_pos (Nat.zero_lt_of_lt hlt)
  · exact List.ne_nil_of_length_pos (Nat.zero_lt_of_lt hj'.2)

structure Passed (all : List EntityPath) (bad : List String) (s : ShortenedEntity) : Prop where
  mem : s.entity ∈ all
  pos : 0 < s.numPart
  shorter : ∀ j, 0 < j → j < s.numPart → j < s.entity.length →
    (⟨s.entity, j⟩ : ShortenedEntity).uiString ∈ bad

/-- A bearer has left bad names behind, and bears a bad one only if it has no longer one. -/
structure Settled (all : List EntityPath) (names : StrToEntities) (bad : List String) : Prop where
  label : ∀ label s, names.lookup label = some s → label = s.uiString
  passed : ∀ label s, names.lookup label = some s → Passed all bad s
  longest : ∀ label s, names.lookup label = some s → label ∈ bad → s.entity.length ≤ s.numPart
  down : ∀ e ∈ all, ∀ j, 0 < j → j < e.length →
    (⟨e, j + 1⟩ : ShortenedEntity).uiString ∈ bad → (⟨e, j⟩ : ShortenedEntity).uiString ∈ bad

theorem Passed.mono (h : Passed all bad s) (label : String) : Passed all (label :: bad) s :=
  ⟨h.mem, h.pos, fun j hj hlt hlen => List.mem_cons_of_mem _ (h.shorter j hj hlt hlen)⟩

theorem Passed.longer (h : Passed all bad s) : Passed all (s.uiString :: bad) s.longer := by
  refine ⟨h.mem, Nat.succ_pos _, fun j hj hlt hlen => ?_⟩
  rcases Nat.lt_succ_iff_lt_or_eq.mp hlt with hlt | rfl
  · exact List.mem_cons_of_mem _ (h.shorter j hj hlt hlen)
  · exact List.mem_cons_self

theorem Settled.next_free (h : Settled all names bad) (hall : Unambiguous all)
    (hs : names.lookup s.uiString = some s) (hbad : s.uiString ∉ bad)
    (hlt : s.numPart < s.entity.length) :
    s.longer.uiString ∉ names ∧ s.longer.uiString ∉ bad := by
  have hpassed := h.passed _ s hs
  constructor
  · intro hmem
    obtain ⟨t, ht⟩ := Option.isSome_iff_exists.mp (AList.lookup_isSome.mpr hmem)
    have hpassed' := h.passed _ t ht
    have hparts := hall s.longer t hpassed.mem hpassed'.mem (Nat.succ_pos _) hpassed'.pos
      (h.label _ t ht)
    obtain ⟨hj, hlen, hname⟩ := shorter hparts hlt
    exact hbad (hname ▸ hpassed'.shorter s.numPart hpassed.pos hj hlen :
      (⟨s.entity, s.numPart⟩ : ShortenedEntity).uiString ∈ bad)
  · intro hmem
    exact hbad (h.down s.entity hpassed.mem s.numPart hpassed.pos hlt hmem)

theorem Settled.insert (h : Settled all names bad) (hs : Passed all bad s)
    (hlongest : s.uiString ∈ bad → s.entity.length ≤ s.numPart) :
    Settled all (names.insert s.uiString s) bad := by
  have hcases : ∀ label t, (names.insert s.uiString s).lookup label = some t →
      label = s.uiString ∧ t = s ∨ names.lookup label = some t := by
    intro label t ht
    by_cases hl : label = s.uiString
    · subst hl
      rw [AList.lookup_insert, Option.some.injEq] at ht
      exact .inl ⟨rfl, ht.symm⟩
    · rw [AList.lookup_insert_ne hl] at ht
      exact .inr ht
  refine ⟨fun label t ht => ?_, fun label t ht => ?_, fun label t ht hbad => ?_, h.down⟩
  · rcases hcases label t ht with ⟨rfl, rfl⟩ | ht
    · rfl
    · exact h.label label t ht
  · rcases hcases label t ht with ⟨rfl, rfl⟩ | ht
    · exact hs
    · exact h.passed label t ht
  · rcases hcases label t ht with ⟨rfl, rfl⟩ | ht
    · exact hlongest hbad
    · exact h.longest label t ht hbad

theorem Settled.eraseBad (h : Settled all names bad) (hall : Unambiguous all)
    (hs : Passed all bad s) : Settled all (names.erase s.uiString) (s.uiString :: bad) := by
  refine ⟨fun label t ht => ?_, fun label t ht => ?_, fun label t ht hbad => ?_, ?_⟩
  · exact h.label label t (lookup_of_erase ht).2
  · exact (h.passed label t (lookup_of_erase ht).2).mono _
  · obtain ⟨hl, ht⟩ := lookup_of_erase ht
    exact h.longest label t ht ((List.mem_cons.mp hbad).resolve_left hl)
  · intro e he j hj hlt hbad
    rcases List.mem_cons.mp hbad with heq | hbad
    · have hparts := hall ⟨e, j + 1⟩ s he hs.mem (Nat.succ_pos _) hs.pos heq
      obtain ⟨hjs, hlen, hname⟩ := shorter hparts hlt
      rw [hname]
      exact List.mem_cons_of_mem _ (hs.shorter j hj hjs hlen)
    · exact List.mem_cons_of_mem _ (h.down e he j hj hlt hbad)

theorem Settled.lengthenExisting (h : Settled all names bad) (hall : Unambiguous all)
    (hs : Passed all bad s) :
    LengthensFreely names s.uiString ∧
      Settled all (EntityPath.lengthenExisting names s.uiString) (s.uiString :: bad) ∧
      (s.entity.length ≤ s.numPart → ¬ Bears names s.entity →
        s.uiString ∉ EntityPath.lengthenExisting names s.uiString) := by
  have herase := h.eraseBad hall hs
  rw [LengthensFreely, EntityPath.lengthenExisting]
  cases ht : names.lookup s.uiString with
  | none =>
    have hgone : names.erase s.uiString = names :=
      AList.ext (List.kerase_of_notMem_keys (AList.lookup_eq_none.mp ht))
    rw [hgone] at herase
    exact ⟨by rintro _ ⟨⟩, herase, fun _ _ => AList.lookup_eq_none.mp ht⟩
  | some t => ?_
  have hlabel : s.uiString = t.uiString := h.label _ t ht
  have hpassed : Passed all (s.uiString :: bad) t.longer := hlabel ▸ (h.passed _ t ht).longer
  by_cases hlen : t.entity.length ≤ t.numPart
  · -- It has no longer name and stays where it is.
    have hsame : t.longer.uiString = s.uiString := (uiString_longer_of_le hlen).trans hlabel.symm
    have hnot : t.longer.uiString ∉ names.erase s.uiString := by
      rw [hsame]
      exact AList.lookup_eq_none.mp (AList.lookup_erase _ _)
    refine ⟨?_, herase.insert hpassed fun _ => hlen.trans (Nat.le_succ _), fun hfull hnew => ?_⟩
    · rintro _ ⟨⟩
      exact hnot
    · have hparts := hall s t hs.mem (h.passed _ t ht).mem hs.pos (h.passed _ t ht).pos hlabel
      rw [lastParts_of_le hfull, lastParts_of_le hlen] at hparts
      exact absurd ⟨_, t, ht, hparts.symm⟩ hnew
  · rw [not_le] at hlen
    have hgood : s.uiString ∉ bad := fun hbad => absurd (h.longest _ t ht hbad) (not_le.mpr hlen)
    rw [hlabel] at ht hgood ⊢
    obtain ⟨hfree, hbad⟩ := h.next_free hall ht hgood hlen
    have hpos : 0 < t.numPart := (h.passed _ t ht).pos
    have hne : t.longer.uiString ≠ t.uiString := fun he =>
      absurd ((uiString_longer hpos).mp he) (not_le.mpr hlen)
    refine ⟨?_, ?_, fun _ _ hmem => ?_⟩
    · rintro _ ⟨⟩ hmem
      exact hfree (AList.mem_erase.mp hmem).2
    · rw [hlabel] at herase hpassed
      refine herase.insert hpassed fun hmem => ?_
      rcases List.mem_cons.mp hmem with he | hmem
      · exact absurd he hne
      · exact absurd hmem hbad
    · rcases (AList.mem_insert _).mp hmem with he | hmem
      · exact hne he.symm
      · exact (AList.mem_erase.mp hmem).1 rfl

theorem Settled.disambiguate (h : Settled all names bad) (hall : Unambiguous all)
    (hs : Passed all bad s) (hnew : ¬ Bears names s.entity) :
    DisambiguatesFreely names bad s ∧
      (EntityPath.disambiguate names bad s).2.2.uiString ∉
        (EntityPath.disambiguate names bad s).1 ∧
      Settled all ((EntityPath.disambiguate names bad s).1.insert
        (EntityPath.disambiguate names bad s).2.2.uiString
        (EntityPath.disambiguate names bad s).2.2) (EntityPath.disambiguate names bad s).2.1 := by
  fun_induction EntityPath.disambiguate names bad s with
  | case1 names bad s label hbad bad' names' hend =>
    obtain ⟨hfree, hsettled, hgone⟩ := h.lengthenExisting hall hs
    have hlen : s.entity.length ≤ s.numPart := (uiString_longer hs.pos).mp hend
    have hend : s.longer.uiString = s.uiString := hend
    refine ⟨?_, ?_, ?_⟩
    · rw [DisambiguatesFreely]
      exact fun _ => ⟨hfree, fun hne => absurd hend hne⟩
    · rw [hend]
      exact hgone hlen hnew
    · exact hsettled.insert hs.longer fun _ => hlen.trans (Nat.le_succ _)
  | case2 names bad s label hbad bad' names' hend ih =>
    obtain ⟨hfree, hsettled, -⟩ := h.lengthenExisting hall hs
    obtain ⟨hrest, hdone⟩ := ih hsettled hs.longer
      fun hb => hnew (bears_of_lengthenExisting hb)
    refine ⟨?_, hdone⟩
    rw [DisambiguatesFreely]
    exact fun _ => ⟨hfree, fun _ => hrest⟩
  | case3 names bad s label hbad =>
    rw [not_or] at hbad
    refine ⟨?_, hbad.1, h.insert hs fun hmem => absurd hmem hbad.2⟩
    rw [DisambiguatesFreely]
    exact fun hmem => absurd hmem (not_or.mpr hbad)

theorem Settled.nothingOverwritten {state : StrToEntities × List String}
    (h : Settled all state.1 state.2) (hall : Unambiguous all) {entities : List EntityPath}
    (hmem : ∀ e ∈ entities, e ∈ all) (hnodup : entities.Nodup) (honce : Once state.1)
    (hnew : ∀ e ∈ entities, ¬ Bears state.1 e) : NothingOverwritten state entities := by
  induction entities generalizing state with
  | nil => trivial
  | cons e entities ih => ?_
  obtain ⟨hhead, hnodup⟩ := List.nodup_cons.mp hnodup
  obtain ⟨he, hmem⟩ := List.forall_mem_cons.mp hmem
  have hpassed : Passed all state.2 ⟨e, 1⟩ :=
    ⟨he, Nat.one_pos, fun j hj hlt => absurd hlt (by simp; omega)⟩
  obtain ⟨hfree, hfresh, hsettled⟩ := h.disambiguate hall hpassed (hnew e List.mem_cons_self)
  obtain ⟨honce', -, hsub, -⟩ := honce.addShortened (hnew e List.mem_cons_self)
  refine ⟨⟨hfree, hfresh⟩, ih hsettled hmem hnodup honce' fun e' he' hb => ?_⟩
  rcases hsub e' hb with rfl | hb
  · exact hhead he'
  · exact hnew e' (List.mem_cons_of_mem e he') hb

theorem mem_of_mem_lastParts (h : part ∈ s.lastParts) : part ∈ s.entity := by
  rw [ShortenedEntity.lastParts, List.mem_reverse] at h
  exact List.mem_reverse.mp (List.mem_of_mem_take h)

theorem uiString_ne_slash (hpos : 0 < s.numPart) (hroot : s.entity ≠ [])
    (hne : ∀ part ∈ s.entity, part ≠ "") (h : ∀ part ∈ s.entity, '/' ∉ part.toList) :
    s.uiString ≠ "/" := by
  intro he
  obtain ⟨part, parts, hparts⟩ := List.exists_cons_of_ne_nil (lastParts_ne_nil hpos hroot)
  have hmem : part ∈ s.entity := mem_of_mem_lastParts (hparts ▸ List.mem_cons_self)
  obtain ⟨c, cs, hc⟩ := List.exists_cons_of_ne_nil (mt String.toList_eq_nil_iff.mp (hne part hmem))
  have hlist := congrArg String.toList he
  simp only [ShortenedEntity.uiString, List.isEmpty_eq_false_iff.mpr hroot, Bool.false_eq_true,
    if_false, String.toList_ofList, hparts, List.map_cons, hc] at hlist
  have hslash : c = '/' := by
    cases parts with
    | nil => exact List.head_eq_of_cons_eq hlist
    | cons next parts => exact List.head_eq_of_cons_eq hlist
  exact h part hmem (by rw [hc, hslash]; exact List.mem_cons_self)

theorem unambiguous_of_no_slash (hne : ∀ e ∈ all, ∀ part ∈ e, part ≠ "")
    (h : ∀ e ∈ all, ∀ part ∈ e, '/' ∉ part.toList) : Unambiguous all := by
  intro s t hs ht hpos hpos' he
  have hroot : ∀ u : ShortenedEntity, u.entity = [] → u.uiString = "/" ∧ u.lastParts = [] := by
    rintro ⟨_, n⟩ rfl
    exact ⟨rfl, by simp [ShortenedEntity.lastParts]⟩
  by_cases hs' : s.entity = []
  · by_cases ht' : t.entity = []
    · rw [(hroot s hs').2, (hroot t ht').2]
    · exact absurd (he.symm.trans (hroot s hs').1) (uiString_ne_slash hpos' ht' (hne _ ht) (h _ ht))
  by_cases ht' : t.entity = []
  · exact absurd (he.trans (hroot t ht').1) (uiString_ne_slash hpos hs' (hne _ hs) (h _ hs))
  have hsplit : ∀ u : ShortenedEntity, u.entity ∈ all → 0 < u.numPart → u.entity ≠ [] →
      (['/'].intercalate (u.lastParts.map String.toList)).splitOn '/' =
        u.lastParts.map String.toList := by
    intro u hu hupos hu'
    refine List.splitOn_intercalate '/' (fun l hl => ?_) (by simpa using lastParts_ne_nil hupos hu')
    obtain ⟨part, hpart, rfl⟩ := List.mem_map.mp hl
    exact h _ hu part (mem_of_mem_lastParts hpart)
  simp only [ShortenedEntity.uiString, List.isEmpty_eq_false_iff.mpr hs',
    List.isEmpty_eq_false_iff.mpr ht', Bool.false_eq_true, if_false, String.ofList_inj] at he
  have hmap := hsplit s hs hpos hs'
  rw [he, hsplit t ht hpos' ht'] at hmap
  exact (List.map_injective_iff.mpr fun _ _ => String.toList_inj.mp) hmap.symm

end Unambiguous

-- ---------------------------------------------------------------------------
-- All names
-- ---------------------------------------------------------------------------

section Names

variable {entities : List EntityPath}

structure NamedApart (entities : List EntityPath) (names : List (EntityPath × String)) : Prop where
  complete : ∀ e ∈ entities, ∃ name, (e, name) ∈ names
  distinct : (names.map Prod.snd).Nodup

theorem mem_shortNames {name : String} :
    (e, name) ∈ shortNamesWithDisambiguation entities ↔
      ∃ s, (entities.foldl addShortened (∅, [])).1.lookup name = some s ∧ s.entity = e := by
  rw [shortNamesWithDisambiguation, List.mem_map]
  constructor
  · rintro ⟨⟨label, s⟩, hmem, he⟩
    obtain ⟨rfl, rfl⟩ := Prod.mk.inj he
    exact ⟨s, AList.mem_lookup_iff.mpr hmem, rfl⟩
  · rintro ⟨s, hs, rfl⟩
    exact ⟨⟨name, s⟩, AList.mem_lookup_iff.mp hs, rfl⟩

theorem shortNames_distinct (entities : List EntityPath) :
    ((shortNamesWithDisambiguation entities).map Prod.snd).Nodup := by
  rw [shortNamesWithDisambiguation, List.map_map]
  exact AList.keys_nodup _

/-- The entities are named apart exactly if no name is overwritten, and so they are if no part
contains a slash. -/
theorem shortNames_namedApart_iff (hnodup : entities.Nodup)
    (hne : ∀ e ∈ entities, ∀ part ∈ e, part ≠ "") :
    (NamedApart entities (shortNamesWithDisambiguation entities) ↔
      NothingOverwritten (∅, []) entities) ∧
    ((∀ e ∈ entities, ∀ part ∈ e, '/' ∉ part.toList) → NothingOverwritten (∅, []) entities) := by
  have hnone : ∀ label, (∅ : StrToEntities).lookup label = none := AList.lookup_empty
  have hempty : ∀ e, ¬ Bears ∅ e := by
    rintro e ⟨label, s, hs, -⟩
    rw [hnone] at hs
    cases hs
  have honce : Once (∅ : StrToEntities) := fun _ _ _ _ hs => by
    rw [hnone] at hs
    cases hs
  constructor
  · obtain ⟨-, -, hiff⟩ := @nothingOverwritten_iff (∅, []) entities honce hnodup fun e _ => hempty e
    rw [hiff]
    constructor
    · rintro ⟨hcomplete, -⟩ e he
      obtain ⟨name, hname⟩ := hcomplete e (he.resolve_right (hempty e))
      obtain ⟨s, hs, rfl⟩ := mem_shortNames.mp hname
      exact ⟨name, s, hs, rfl⟩
    · intro hall
      refine ⟨fun e he => ?_, shortNames_distinct entities⟩
      obtain ⟨name, s, hs, rfl⟩ := hall e (.inl he)
      exact ⟨name, mem_shortNames.mpr ⟨s, hs, rfl⟩⟩
  · intro hslash
    have hsettled : Settled entities ∅ [] := by
      refine ⟨?_, ?_, ?_, by simp⟩
      all_goals
        intro label s hs
        rw [hnone] at hs
        cases hs
    exact Settled.nothingOverwritten hsettled (unambiguous_of_no_slash hne hslash)
      (fun _ he => he) hnodup honce fun e _ => hempty e

/-- Three entities that end alike. -/
theorem shortNames_namedApart_two :
    NamedApart [["a", "b"], ["c", "b"], ["b"]]
      (shortNamesWithDisambiguation [["a", "b"], ["c", "b"], ["b"]]) := by
  have h := @shortNames_namedApart_iff [["a", "b"], ["c", "b"], ["b"]] (by decide) (by decide)
  exact h.1.mpr (h.2 (by decide))

/-- The third entity moves the second one to the name of the first. -/
theorem shortNames_overwritten :
    shortNamesWithDisambiguation [["a/b"], ["a", "b"], ["c", "b"]] =
        [(["c", "b"], "c/b"), (["a", "b"], "a/b")] ∧
      ¬ NamedApart [["a/b"], ["a", "b"], ["c", "b"]]
        (shortNamesWithDisambiguation [["a/b"], ["a", "b"], ["c", "b"]]) := by
  have heq : shortNamesWithDisambiguation [["a/b"], ["a", "b"], ["c", "b"]] =
      [(["c", "b"], "c/b"), (["a", "b"], "a/b")] := by decide +kernel
  refine ⟨heq, fun h => ?_⟩
  obtain ⟨name, hname⟩ := h.complete ["a/b"] (by simp)
  rw [heq] at hname
  simp at hname

end Names

end DimosViewer.EntityPath
