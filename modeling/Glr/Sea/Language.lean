import Glr.Grammar.Build
import Glr.Language.Basic
import Glr.Sea.Grammar

/-!
# The language Sea

The tables, the blob and the language of the grammar.  All are computed when they are first asked
for.
-/

namespace Glr

/-- Why a grammar gives no language. -/
inductive LanguageError where
  | grammar (e : GrammarError)
  | load (e : LoadError)
  deriving Repr

namespace Sea

def tables : Thunk (Except GrammarError Tables) := Thunk.mk fun _ => grammar.build

def blob : Thunk (Except GrammarError Text) :=
  Thunk.mk fun _ => tables.get.map fun t => Blob.encode t Blob.currentVersion

def language : Thunk (Except LanguageError Language) := Thunk.mk fun _ =>
  match blob.get with
  | .error e => .error (.grammar e)
  | .ok bytes =>
    match Language.ofBlob bytes with
    | .error e => .error (.load e)
    | .ok l => .ok l

end Sea

end Glr
