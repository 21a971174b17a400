import RegisterWeb.Section.Basic

/-!
The log of a run: one record for each stage that came to its end, and further records for the topics
that are asked for.
-/

namespace RegisterWeb

/-- What a record says about a thing. -/
inductive LogValue where
  | number (n : Int)
  | text (s : String)
  deriving DecidableEq, Repr

/-- A message with named values. -/
structure LogRecord where
  message : String
  values : List (String × LogValue)
  deriving DecidableEq, Repr

/-- The topics that have records of their own. -/
inductive LogTopic where
  | blocks
  | versions
  deriving DecidableEq, Repr

namespace LogTopic

def name : LogTopic → String
  | blocks => "regflow_blocks"
  | versions => "regflow_ssa"

/-- The topics of a list of names that are divided by commas; other names mean nothing. -/
def ofNames (names : String) : List LogTopic :=
  [blocks, versions].filter fun t => (names.splitOn ",").contains t.name

end LogTopic

namespace LogRecord

def count (n : Nat) : LogValue :=
  .number n

def ofStart (s : Section) : LogRecord :=
  ⟨"regflow: analyze section",
    [("size", .number s.size.toInt), ("hints", count s.hints.length),
      ("usages", count s.usages.length)]⟩

def ofGraph (topics : List LogTopic) (g : Graph) : List LogRecord :=
  ⟨"control flow", [("blocks", count g.size), ("routines", count g.routines.length)]⟩
    :: (if topics.contains .blocks then [⟨"blocks", [("cfg", .text g.text)]⟩] else [])

def ofAnalysis (a : Analysis) : LogRecord :=
  ⟨"ssa", [("keys", count a.tracks.length), ("deferred", count a.deferred.length)]⟩

def ofSettled (topics : List LogTopic) (tasks : Nat) (a : Analysis) : List LogRecord :=
  ⟨"reconciled", [("tasks", count tasks), ("renamed", count a.replaces.length)]⟩
    :: (if topics.contains .versions then [⟨"replaces", []⟩] else [])

def ofLive (l : Live) : LogRecord :=
  ⟨"liveness", [("sgpr", count (l.inBank Bank.scalar).length),
    ("vgpr", count (l.inBank Bank.vector).length)]⟩

/-- The log of the run of a section. -/
def ofRun (topics : List LogTopic) (s : Section) (r : Run) : List LogRecord :=
  [ofStart s]
    ++ ((r.graph?.map (ofGraph topics)).getD [])
    ++ (r.start?.map ofAnalysis).toList
    ++ ((r.settled?.map (ofSettled topics r.tasks)).getD [])
    ++ (r.outcome.toOption.map fun result => ofLive result.live).toList

end LogRecord

end RegisterWeb
