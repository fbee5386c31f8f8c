/-!
# Parser limits

Every limit degrades gracefully: meeting one never makes a parse fail, it only makes the tree less
precise.
-/

namespace Glr

/-- The limits of a parser. -/
structure ParserConfig where
  /-- How many stacks may be alive. -/
  maxStacks : Nat := 16
  /-- For how many tokens a fork may stay unresolved. -/
  maxAmbiguityDepth : Nat := 32
  /-- How many tokens in a row a recovery may skip before it gives up the rest of the text. -/
  maxSkipTokens : Nat := 64
  /-- How many repairs that consume nothing may be made at one place. -/
  maxRecoveryAttempts : Nat := 4
  /-- How many reductions may be made on one token. -/
  maxReductionsPerToken : Nat := 4096
  /-- How many stack entries a repair may discard. -/
  maxRecoveryDepth : Nat := 8
  deriving Repr, DecidableEq, Inhabited

namespace ParserConfig

/-- The largest number of steps that a word can count. -/
def largestCount : Nat := 0xFFFFFFFFFFFFFFFF

/-- The steps that a parse of a text may take: at each byte, and at the end, one step for every
repair and a few more. -/
def stepBudget (c : ParserConfig) (size : Nat) : Nat :=
  min ((size + 1) * (max c.maxRecoveryAttempts 2 + 2) + 1024) largestCount

/-- Whether the number of steps at one byte fits its word. -/
def budgetFits (c : ParserConfig) : Bool := max c.maxRecoveryAttempts 2 + 2 ≤ largestCount

def render (c : ParserConfig) : String :=
  "ParserConfig \x7b max_stacks: " ++ toString c.maxStacks
    ++ ", max_ambiguity_depth: " ++ toString c.maxAmbiguityDepth
    ++ ", max_skip_tokens: " ++ toString c.maxSkipTokens
    ++ ", max_recovery_attempts: " ++ toString c.maxRecoveryAttempts
    ++ ", max_reductions_per_token: " ++ toString c.maxReductionsPerToken
    ++ ", max_recovery_depth: " ++ toString c.maxRecoveryDepth ++ " \x7d"

end ParserConfig

end Glr
