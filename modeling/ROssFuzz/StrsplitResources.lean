import ROssFuzz.Resources
import Mathlib.Data.List.Perm.Subperm

/-!
# What `strsplit` allocates for its patterns

In the PCRE2 branch of `do_strsplit` every token is prepared, with a compiled pattern, a
match context and match data of its own and, where there are none yet, the character tables
that all tokens share; then the texts are split by it. The loop over the texts runs under a
context, whose cleanup frees all of these when an R error unwinds. After the loop the context
is left and frees what belongs to the token, and after the last token the tables are freed.

`R_pcre_prepare` is given by what it does: which parts it has allocated, in which order, by
the time that it returns or raises.
-/

namespace ROssFuzz.StrsplitResources
open Resources

inductive Part
  | tables
  | re
  | mcontext
  | mdata
  deriving DecidableEq

/-- A part, and the token whose preparation has allocated it. -/
abbrev Resource := Part × ℕ

structure Token where
  /-- what its preparation needs, in order; the tables may be there already -/
  prepares : List Part
  /-- whether the preparation then raises an error -/
  raises : Bool
  /-- for every text that it splits, whether that raises an error -/
  texts : List Bool
  nodup : prepares.Nodup
  complete : raises = false → .re ∈ prepares ∧ .mcontext ∈ prepares ∧ .mdata ∈ prepares

/-- `regex_cleanup_info`. -/
structure RegexCleanupInfo where
  fixedOpt : Bool
  perlOpt : Bool
  reg : Option Resource
  tables : Option Resource
  re : Option Resource
  mdata : Option Resource
  mcontext : Option Resource

/-- A `free`, of nothing where the pointer is NULL. -/
def free (p : Option Resource) : List (Event Resource) := p.toList.map .release

/-- `regex_cleanup`. -/
def regexCleanup (ci : RegexCleanupInfo) : List (Event Resource) :=
  if ci.fixedOpt then []
  else if ci.perlOpt then free ci.mdata ++ free ci.re ++ free ci.mcontext ++ free ci.tables
  else free ci.reg

/-- The preparation of token `itok`, which leaves the tables there are. -/
def prepare (itok : ℕ) : List Part → Option Resource → List (Event Resource) × Option Resource
  | [], tables => ([], tables)
  | .tables :: parts, some p =>
      let (es, tables) := prepare itok parts (some p)
      (.use p :: es, tables)
  | .tables :: parts, none =>
      let (es, tables) := prepare itok parts (some (.tables, itok))
      (.acquire (.tables, itok) :: es, tables)
  | part :: parts, tables =>
      let (es, tables) := prepare itok parts tables
      (.acquire (part, itok) :: es, tables)

/-- The loop over the texts, and whether one of them raises. -/
def splitTexts (uses : List Resource) : List Bool → List (Event Resource) × Bool
  | [] => ([], false)
  | true :: _ => (uses.map .use, true)
  | false :: texts =>
      let (es, raised) := splitTexts uses texts
      (uses.map .use ++ es, raised)

/-- What matching reads: the tables only where the pattern was compiled with them. -/
def Token.reads (token : Token) (itok : ℕ) (tables : Option Resource) : List Resource :=
  [(.re, itok), (.mdata, itok), (.mcontext, itok)] ++
    if .tables ∈ token.prepares then tables.toList else []

/-- The tokens from `itok` on. -/
def splitTokens (itok : ℕ) (tables : Option Resource) : List Token → List (Event Resource)
  | [] => free tables
  | token :: tokens =>
      let (prepared, tables) := prepare itok token.prepares tables
      if token.raises then prepared  -- there is no context to clean up
      else
        let ci : RegexCleanupInfo := ⟨false, true, none, tables, some (.re, itok),
          some (.mdata, itok), some (.mcontext, itok)⟩
        let (matched, raised) := splitTexts (token.reads itok tables) token.texts
        prepared ++ matched ++
          if raised then regexCleanup ci
          else regexCleanup { ci with tables := none } ++ splitTokens (itok + 1) tables tokens

/-- `do_strsplit` in the PCRE2 branch. -/
def doStrsplit (tokens : List Token) : List (Event Resource) := splitTokens 0 none tokens

def Token.Completes (token : Token) : Prop := token.raises = false ∧ true ∉ token.texts

/-- When the preparation of a token raises, nothing is allocated: it has not begun to
allocate, and no token before it needed the tables. -/
def RaisesEmptyHanded (tokens : List Token) : Prop :=
  ∀ before token after, tokens = before ++ token :: after → (∀ t ∈ before, t.Completes) →
    token.raises = true → token.prepares = [] ∧ ∀ t ∈ before, .tables ∉ t.prepares

/-! ### A preparation -/

variable {itok : ℕ} {tables : Option Resource} {parts : List Part} {held : List Resource}

/-- What the preparation of a token allocates for the token alone. -/
def own (itok : ℕ) (parts : List Part) : List Resource :=
  (parts.filter (· ≠ .tables)).map (·, itok)

private theorem prepare_lawful (itok : ℕ) (parts : List Part) (tables : Option Resource)
    (held : List Resource) :
    Lawful (tables.toList ++ held) (prepare itok parts tables).1
      ((prepare itok parts tables).2.toList ++ (own itok parts ++ held)) := by
  induction parts generalizing tables held with
  | nil => exact .nil (.refl _)
  | cons part parts ih =>
    by_cases hpart : part = .tables
    · subst hpart
      cases tables with
      | none => exact .acquire (ih (some (.tables, itok)) held)
      | some p => exact .use List.mem_cons_self (ih (some p) held)
    · have hstep : prepare itok (part :: parts) tables =
          (.acquire (part, itok) :: (prepare itok parts tables).1, (prepare itok parts tables).2) := by
        cases part <;> first | rfl | exact absurd rfl hpart
      have hown : own itok (part :: parts) = (part, itok) :: own itok parts := by
        simp [own, hpart]
      rw [hstep, hown]
      have htail := ih tables ((part, itok) :: held)
      apply Lawful.acquire
      apply (htail.of_perm List.perm_middle.symm).to_perm
      exact List.perm_middle.symm.append_left _

private theorem prepare_tables_eq_none_iff (itok : ℕ) (parts : List Part)
    (tables : Option Resource) :
    (prepare itok parts tables).2 = none ↔ tables = none ∧ .tables ∉ parts := by
  induction parts generalizing tables with
  | nil => simp [prepare]
  | cons part parts ih =>
    cases part <;> cases tables <;> simp [prepare, ih]

private theorem acquired_prepare_sublist (itok : ℕ) (parts : List Part)
    (tables : Option Resource) :
    (acquired (prepare itok parts tables).1).Sublist (parts.map (·, itok)) := by
  induction parts generalizing tables with
  | nil => exact List.Sublist.refl _
  | cons part parts ih =>
    by_cases hpart : part = .tables
    · subst hpart
      cases tables with
      | none => exact (ih _).cons_cons _
      | some p => exact (ih _).cons _
    · cases part <;> first | exact (ih _).cons_cons _ | exact absurd rfl hpart

/-- The parts that every token needs for itself. -/
def needed (itok : ℕ) : List Resource := [(.mdata, itok), (.re, itok), (.mcontext, itok)]

private theorem own_perm (itok : ℕ) {token : Token} (h : token.raises = false) :
    (own itok token.prepares).Perm (needed itok) := by
  obtain ⟨hre, hmcontext, hmdata⟩ := token.complete h
  have hparts : (token.prepares.filter (· ≠ .tables)).Perm [.mdata, .re, .mcontext] := by
    rw [List.perm_ext_iff_of_nodup (token.nodup.filter _) (by decide)]
    intro part
    cases part <;> simp [hre, hmcontext, hmdata]
  exact hparts.map _

/-! ### The loop over the texts -/

private theorem splitTexts_lawful {uses : List Resource} (h : ∀ p ∈ uses, p ∈ held)
    (texts : List Bool) : Lawful held (splitTexts uses texts).1 held := by
  induction texts with
  | nil => exact .nil (.refl _)
  | cons raises texts ih =>
    cases raises with
    | true => exact .uses h
    | false => exact (Lawful.uses h).append ih

private theorem splitTexts_raised {uses : List Resource} {texts : List Bool} :
    (splitTexts uses texts).2 = decide (true ∈ texts) := by
  induction texts with
  | nil => rfl
  | cons raises texts ih => cases raises <;> simp [splitTexts, ih]

private theorem acquired_uses (ps : List Resource) : acquired (ps.map Event.use) = [] := by
  induction ps with
  | nil => rfl
  | cons _ _ ih => exact ih

private theorem acquired_free (p : Option Resource) : acquired (free p) = [] := by
  cases p <;> rfl

private theorem acquired_splitTexts (uses : List Resource) (texts : List Bool) :
    acquired (splitTexts uses texts).1 = [] := by
  induction texts with
  | nil => rfl
  | cons raises texts ih =>
    cases raises with
    | true => exact acquired_uses uses
    | false => rw [splitTexts, acquired_append, acquired_uses, ih, List.append_nil]

private theorem acquired_regexCleanup (ci : RegexCleanupInfo) : acquired (regexCleanup ci) = [] := by
  unfold regexCleanup
  split
  · rfl
  split
  · simp only [acquired_append, acquired_free, List.append_nil]
  · exact acquired_free _

/-! ### The loop over the tokens -/

/-- What the cleanup of a token frees. -/
private theorem regexCleanup_eq (itok : ℕ) (tables : Option Resource) :
    regexCleanup ⟨false, true, none, tables, some (.re, itok), some (.mdata, itok),
      some (.mcontext, itok)⟩ =
    (needed itok ++ tables.toList).map .release := by
  rw [List.map_append]
  rfl

private theorem reads_held (itok : ℕ) (tables : Option Resource) (held : List Resource)
    {token : Token} (h : token.raises = false) :
    ∀ p ∈ token.reads itok tables, p ∈ tables.toList ++ (own itok token.prepares ++ held) := by
  intro p hp
  rw [List.mem_append, List.mem_append, (own_perm itok h).mem_iff]
  rw [Token.reads, List.mem_append] at hp
  rcases hp with hp | hp
  · refine .inr (.inl ?_)
    simp only [needed, List.mem_cons, List.not_mem_nil, or_false] at hp ⊢
    tauto
  · refine .inl ?_
    split at hp
    · exact hp
    · exact absurd hp List.not_mem_nil

/-- `RaisesEmptyHanded`, with the tables that the tokens so far have made. -/
private def EmptyHanded (tables : Option Resource) (tokens : List Token) : Prop :=
  ∀ before token after, tokens = before ++ token :: after → (∀ t ∈ before, t.Completes) →
    token.raises = true → tables = none ∧ token.prepares = [] ∧ ∀ t ∈ before, .tables ∉ t.prepares

private theorem emptyHanded_cons (itok : ℕ) (tables : Option Resource) (token : Token)
    (tokens : List Token) :
    EmptyHanded tables (token :: tokens) ↔
      (token.raises = true → tables = none ∧ token.prepares = []) ∧
      (token.Completes → EmptyHanded (prepare itok token.prepares tables).2 tokens) := by
  constructor
  · intro h
    refine ⟨fun hraises => ?_, fun hcompletes before t after heq hbefore hraises => ?_⟩
    · obtain ⟨htables, hnil, -⟩ := h [] token tokens rfl nofun hraises
      exact ⟨htables, hnil⟩
    · have hall : ∀ t ∈ token :: before, t.Completes := by
        rintro t (_ | ⟨_, ht⟩)
        · exact hcompletes
        · exact hbefore t ht
      obtain ⟨htables, hnil, hnone⟩ :=
        h (token :: before) t after (by rw [heq, List.cons_append]) hall hraises
      exact ⟨(prepare_tables_eq_none_iff _ _ _).mpr ⟨htables, hnone token List.mem_cons_self⟩, hnil,
        fun t ht => hnone t (List.mem_cons_of_mem _ ht)⟩
  · rintro ⟨hhead, htail⟩ before t after heq hbefore hraises
    cases before with
    | nil =>
      obtain ⟨rfl, rfl⟩ := List.cons.inj heq
      obtain ⟨htables, hnil⟩ := hhead hraises
      exact ⟨htables, hnil, nofun⟩
    | cons first before =>
      obtain ⟨rfl, rfl⟩ := List.cons.inj heq
      obtain ⟨hnone, hnil, hrest⟩ := htail (hbefore _ List.mem_cons_self) before t after rfl
        (fun t ht => hbefore t (List.mem_cons_of_mem _ ht)) hraises
      obtain ⟨htables, hfirst⟩ := (prepare_tables_eq_none_iff _ _ _).mp hnone
      refine ⟨htables, hnil, ?_⟩
      rintro t (_ | ⟨_, ht⟩)
      · exact hfirst
      · exact hrest t ht

/-- A preparation leaves nothing allocated when it has not begun, and there are no tables. -/
private theorem prepared_eq_nil_iff (itok : ℕ) (parts : List Part) (tables : Option Resource) :
    (prepare itok parts tables).2.toList ++ own itok parts = [] ↔ tables = none ∧ parts = [] := by
  have hown : own itok parts = [] ↔ ∀ part ∈ parts, part = .tables := by simp [own]
  rw [List.append_eq_nil_iff, Option.toList_eq_nil_iff, prepare_tables_eq_none_iff, hown]
  constructor
  · rintro ⟨⟨hnone, hmem⟩, hall⟩
    refine ⟨hnone, List.eq_nil_iff_forall_not_mem.mpr fun part hpart => ?_⟩
    exact hmem (hall part hpart ▸ hpart)
  · rintro ⟨hnone, rfl⟩
    exact ⟨⟨hnone, List.not_mem_nil⟩, nofun⟩

/-- Every use and every free is of something held; what is left at the end is nothing unless
a preparation raised when something was held. -/
private theorem splitTokens_lawful (tokens : List Token) (itok : ℕ) (tables : Option Resource) :
    ∃ held, Lawful tables.toList (splitTokens itok tables tokens) held ∧
      (held = [] ↔ EmptyHanded tables tokens) := by
  induction tokens generalizing itok tables with
  | nil =>
    refine ⟨[], .releases (by rw [List.append_nil]), fun _ => ?_, fun _ => rfl⟩
    intro before token after heq
    exact absurd heq (by simp)
  | cons token tokens ih =>
    have hprepared := prepare_lawful itok token.prepares tables []
    rw [List.append_nil, List.append_nil] at hprepared
    rw [splitTokens, emptyHanded_cons itok tables]
    have hleft := prepared_eq_nil_iff itok token.prepares tables
    obtain ⟨held, hrest, hheld⟩ := ih (itok + 1) (prepare itok token.prepares tables).2
    generalize hprepare : prepare itok token.prepares tables = p at *
    obtain ⟨prepared, tables'⟩ := p
    dsimp only at *
    by_cases hraises : token.raises = true
    · rw [if_pos hraises]
      refine ⟨_, hprepared, hleft.trans ⟨fun hempty => ⟨fun _ => hempty, fun hcompletes => ?_⟩,
        fun hempty => hempty.1 hraises⟩⟩
      exact absurd (hraises.symm.trans hcompletes.1) (by decide)
    · rw [if_neg hraises]
      have hfalse : token.raises = false := Bool.eq_false_iff.mpr hraises
      have hmatched := hprepared.append (splitTexts_lawful
        (fun p hp => by simpa using reads_held itok tables' [] hfalse p hp)
        token.texts)
      have hown := own_perm itok hfalse
      rw [splitTexts_raised]
      by_cases htexts : true ∈ token.texts
      · rw [if_pos (decide_eq_true htexts), regexCleanup_eq]
        refine ⟨[], hmatched.append (.releases ?_), fun _ => ⟨fun h => absurd h hraises, ?_⟩,
          fun _ => rfl⟩
        · rw [List.append_nil]
          exact (hown.append_left _).trans List.perm_append_comm
        · exact fun hcompletes => absurd htexts hcompletes.2
      · rw [if_neg (by simpa using htexts), regexCleanup_eq]
        refine ⟨held, hmatched.append ((Lawful.releases ?_).append hrest), ?_⟩
        · rw [Option.toList_none, List.append_nil]
          exact (hown.append_left _).trans List.perm_append_comm
        · rw [hheld]
          exact ⟨fun h => ⟨fun h' => absurd h' hraises, fun _ => h⟩, fun h => h.2 ⟨hfalse, htexts⟩⟩

private theorem acquired_splitTokens (tokens : List Token) (itok : ℕ) (tables : Option Resource) :
    (acquired (splitTokens itok tables tokens)).Nodup ∧
      ∀ p ∈ acquired (splitTokens itok tables tokens), itok ≤ p.2 := by
  induction tokens generalizing itok tables with
  | nil => rw [splitTokens, acquired_free]; exact ⟨List.nodup_nil, nofun⟩
  | cons token tokens ih =>
    have hsublist := acquired_prepare_sublist itok token.prepares tables
    have hnodup : (acquired (prepare itok token.prepares tables).1).Nodup :=
      hsublist.nodup (token.nodup.map fun _ _ h => (Prod.mk.inj h).1)
    have hitok : ∀ p ∈ acquired (prepare itok token.prepares tables).1, p.2 = itok := by
      intro p hp
      obtain ⟨part, -, rfl⟩ := List.mem_map.mp (hsublist.subset hp)
      rfl
    obtain ⟨hrest, hlater⟩ := ih (itok + 1) (prepare itok token.prepares tables).2
    rw [splitTokens]
    generalize prepare itok token.prepares tables = p at *
    obtain ⟨prepared, tables'⟩ := p
    dsimp only at *
    split
    · exact ⟨hnodup, fun p hp => Nat.le_of_eq (hitok p hp).symm⟩
    rw [acquired_append, acquired_append, acquired_splitTexts, List.append_nil]
    split
    · rw [acquired_regexCleanup, List.append_nil]
      exact ⟨hnodup, fun p hp => Nat.le_of_eq (hitok p hp).symm⟩
    · rw [acquired_append, acquired_regexCleanup, List.nil_append, List.nodup_append]
      refine ⟨⟨hnodup, hrest, fun p hp q hq heq => ?_⟩, fun p hp => ?_⟩
      · have := hitok p hp
        have := hlater q hq
        rw [heq] at *
        omega
      · rcases List.mem_append.mp hp with hp | hp
        · exact Nat.le_of_eq (hitok p hp).symm
        · exact Nat.le_trans (Nat.le_succ itok) (hlater p hp)

/-- Everything is freed exactly once, and nothing used when it has been freed, exactly when no
preparation raises while something is allocated: then no context is open that would free it. -/
theorem doStrsplit_freedOnce_iff (tokens : List Token) :
    FreedOnce (doStrsplit tokens) ↔ RaisesEmptyHanded tokens := by
  obtain ⟨held, hlawful, hheld⟩ := splitTokens_lawful tokens 0 none
  rw [doStrsplit, hlawful.freedOnce_iff (acquired_splitTokens tokens 0 none).1, hheld]
  constructor
  · exact fun h before token after heq hbefore hraises =>
      (h before token after heq hbefore hraises).2
  · exact fun h before token after heq hbefore hraises =>
      ⟨rfl, h before token after heq hbefore hraises⟩

/-- The first token makes the tables and splits its text, the pattern of the second does not
compile: nothing frees the tables. -/
theorem doStrsplit_leaks_tables : ¬ FreedOnce (doStrsplit
    [⟨[.tables, .re, .mcontext, .mdata], false, [false], by decide, by decide⟩,
      ⟨[.tables], true, [], by decide, by decide⟩]) :=
  fun h => absurd (h.1 (.tables, 0) (by decide)) (by decide)

end ROssFuzz.StrsplitResources
