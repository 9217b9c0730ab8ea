import ROssFuzz.TranslationBuffers

/-!
# The patterns of the regex functions

`do_grep`, `do_regexpr`, `do_gsub` and `do_regexec` compile a pattern and match a vector of texts
with it, each translated first where that is needed. The pattern is released when an error unwinds
out of the loop, by `regex_cleanup`, which a fixed pattern, one of PCRE and one of TRE have in common.

The preparation of a pattern comes before the context. It is given by what it does: what it has
allocated by the time that it ends, in which order, and whether it raises.
-/

namespace ROssFuzz.RegexPatterns
open OwnedCode OwnedCode.Code Resources TranslationBuffers

inductive Engine | fixed | perl | tre deriving DecidableEq

/-- What `regex_cleanup` frees, in order. -/
def Engine.vars : Engine → List Var
  | .fixed => []
  | .perl => [.mdata, .re, .mcontext, .tables]
  | .tre => [.reg]

/-- What matching reads. One of PCRE may have tables of its own. -/
def Engine.reads : Engine → List Var
  | .fixed => []
  | .perl => [.re, .mdata, .mcontext]
  | .tre => [.reg]

structure Pattern where
  engine : Engine
  /-- what its preparation needs, in order -/
  prepares : List Var
  /-- whether the preparation then raises an error -/
  raises : Bool
  nodup : prepares.Nodup
  subset : prepares ⊆ engine.vars
  complete : raises = false → engine.reads ⊆ prepares

structure Text where
  /-- none for a text that is matched as it is -/
  translation : Option Translation
  /-- whether an error is raised after that: by a failed allocation, or by `do_gsub` and
  `do_regexec` for a text that cannot be translated -/
  raises : Bool

def prepare (pattern : Pattern) : RCode Unit := do
  forEach assign pattern.prepares
  if pattern.raises then raise else pure ()

def regexCleanup (engine : Engine) : RCode Unit := forEach release engine.vars

section
variable (warnIsError : Bool) (kind : Kind) (pattern : Pattern) (full : Bool) (texts : List Text)

end

/-! ### The loop -/

/-- What comes of a text. -/
def Text.outcome (outcome : Translation → Outcome) (text : Text) : Outcome :=
  match (text.translation.map outcome).getD .result with
  | .raised => .raised
  | .lost => .lost
  | other => if text.raises then .raised else other

/-- The variables while the pattern is there, and nothing else. -/
structure Compiled (engine : Engine) (ptr : Var → ℕ) : Prop where
  reads : ∀ x ∈ engine.reads, ptr x ≠ 0
  only : ∀ x ∉ engine.vars, ptr x = 0

theorem Compiled.idle {engine : Engine} {ptr : Var → ℕ} (h : Compiled engine ptr) : Idle ptr := by
  constructor <;> (apply h.only; cases engine <;> simp [Engine.vars])

section
variable {engine : Engine} {ptr : Var → ℕ} {trans : Translation → RCode Bool}
  {outcome : Translation → Outcome}

end

end ROssFuzz.RegexPatterns
