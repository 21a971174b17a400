import RegisterWeb.Section.Basic

/-!
Several sections at once. All must succeed; otherwise the failure of the first one that fails is
reported with its place among the sections. A place may hold no section, which is a fault of that
place only.
-/

namespace RegisterWeb

/-- The failure of the section at `index`. -/
structure BatchFailure where
  index : Nat
  failure : Failure
  deriving DecidableEq, Repr

namespace BatchFailure

def message (e : BatchFailure) : String :=
  let text := match e.failure with
    | .fault f => "panic: " ++ f.message
    | other => other.message
  "section " ++ toString e.index ++ ": " ++ text

end BatchFailure

namespace Section

/-- Analyzes sections of which the first is the one at `index`. -/
def analyzeFrom (settings : Settings) (index : Nat) :
    List (Option Section) → Except BatchFailure (List Result)
  | [] => .ok []
  | s :: rest =>
    match (Run.ofSection? settings s).outcome with
    | .error e => .error ⟨index, e⟩
    | .ok r => (analyzeFrom settings (index + 1) rest).map (r :: ·)

/-- The results of all sections, or the failure of the first one that fails. -/
def analyzeAll (settings : Settings) (sections : List (Option Section)) :
    Except BatchFailure (List Result) :=
  analyzeFrom settings 0 sections

end Section

end RegisterWeb
