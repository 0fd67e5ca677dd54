import Reckoner.Evaluate
import Reckoner.Proofs.Grammar.Simulation
import Reckoner.Proofs.Grammar.Value
import Reckoner.Proofs.Source.Relocation

/-!
# Reading tokens at other places

Evaluation looks at no place. So tokens that stand elsewhere evaluate alike, and an error follows
the token that it stands at. Main statements: moving an input moves its error and nothing else, and
what can be read up to the end of the tokens can also be read up to a closing bracket.
-/
namespace Reckoner

theorem Ending.alike_relocate (move : Nat → Nat) (ending : Ending) :
    Alike (fun e f => f = e.relocate move) ending (ending.relocate move) := by
  cases ending with
  | finish position => exact .finish rfl
  | fault e => exact .fault rfl

theorem Ending.alike_self (ending : Ending) : Alike (fun e f => f = e) ending ending := by
  cases ending with
  | finish position => exact .finish rfl
  | fault e => exact .fault rfl

namespace FunctionTable

variable (functions : FunctionTable) {ending ending' : Ending}

def Agree (other : FunctionTable) (name : String) : Prop := other.get? name = functions.get? name

/-- Evaluation looks at no place, so tokens that correspond are read alike. An operator computes the
same wherever it stands and refuses the same operands, and a name means the same if the tables
agree on it. It need not if it is unknown to the first table and this error passes. -/
def trackingBetween (other : FunctionTable) (c : Meaning.Correspondence ending ending')
    (hnames : ∀ {t t' : Located} {name : String}, c.token t t' → t.token = .identifier name →
      functions.Agree other name ∨
        functions.get? name = none ∧ c.passes ⟨t.position, .unknownFunction name⟩) :
    Meaning.Tracking functions.meaning other.meaning ending ending' where
  toCorrespondence := c
  value v w := w = v
  number x := rfl
  sign sign h := congrArg _ h
  group h := h
  call {t t' name} ht htoken := by
    change (functions.get? name = none ∧ (_ ∨ other.get? name = none)) ∨
      ∃ f g, functions.get? name = some f ∧ other.get? name = some g ∧ ∀ v w, w = v → g w = f v
    rcases hnames ht htoken with hagree | ⟨hnone, hpasses⟩
    · rw [hagree]
      cases functions.get? name with
      | none => exact .inl ⟨rfl, .inr rfl⟩
      | some f => exact .inr ⟨f, f, rfl, rfl, fun v w hvw => congrArg f hvw⟩
    · exact .inl ⟨hnone, .inl hpasses⟩
  combine {t t' x y x' y'} op ht hx hy := by
    obtain rfl := hx
    obtain rfl := hy
    change Follows _ _ _ (op.apply t.position x' y') (op.apply t'.position x' y')
    cases hv : op.apply t.position x' y' with
    | ok v => exact ⟨v, Operator.apply_ok_elsewhere hv _, rfl⟩
    | error e =>
      obtain ⟨hop, hzero, rfl⟩ := Operator.apply_eq_error_iff.mp hv
      exact .inr ⟨_, Operator.apply_eq_error_iff.mpr ⟨hop, hzero, rfl⟩, c.error_at ht rfl⟩

def tracking (c : Meaning.Correspondence ending ending') :
    Meaning.Tracking functions.meaning functions.meaning ending ending' :=
  functions.trackingBetween functions c fun _ _ => .inl rfl

variable {passes : EvalError → Prop} {behind : List Located} (move : Nat → Nat)

/-- Reading tokens at other places, with more tokens behind them, tracks reading the tokens. -/
def relocating
    (hbehind : Meaning.EndsWith passes (fun e f => f = e.relocate move) ending ending' behind) :
    Meaning.Tracking functions.meaning functions.meaning ending ending' :=
  functions.tracking
    { token := fun t t' => t' = t.relocate move
      tokens := fun rest others => others = rest.map (Located.relocate move) ++ behind
      error := fun e f => f = e.relocate move
      passes := passes
      tokens_cons := fun {t rest _} h => ⟨t.relocate move, _, h, rfl, rfl⟩
      tokens_end := fun {others} h => by
        obtain rfl : others = behind := h
        exact hbehind
      token_eq := fun h => by rw [h]; rfl
      error_at := fun h _ _ => by rw [h]; rfl }

theorem read_relocate (input : Input) :
    functions.meaning.read (input.relocate move) =
      (functions.meaning.read input).mapError (EvalError.relocate move) := by
  have hend : Meaning.EndsWith (fun _ => False) (fun e f => f = e.relocate move) input.ending
      (input.ending.relocate move) [] := .alike (input.ending.alike_relocate move)
  have hfollows := (functions.relocating move hend).follows_read_of
    (List.append_nil (input.tokens.map (Located.relocate move))).symm
    fun rest' hmoved => hmoved.tokens
  change Follows (fun _ => False) (fun e f => f = e.relocate move) (fun v w => w = v)
    (functions.meaning.read input) (functions.meaning.read (input.relocate move)) at hfollows
  cases hread : functions.meaning.read input with
  | ok v =>
    rw [hread] at hfollows
    obtain ⟨w, hw, rfl⟩ := hfollows
    exact hw
  | error e =>
    rw [hread] at hfollows
    obtain hnever | ⟨f, hf, rfl⟩ := hfollows
    · exact hnever.elim
    · exact hf

end FunctionTable

end Reckoner
