import IntC.Suite.Result

namespace IntC.Suite

/-- The results by file. Of two results for a file the later one counts. -/
def byFile (results : List FileResult) : List FileResult :=
  let last := results.reverse.foldl
    (fun kept result => if kept.any (·.file = result.file) then kept else result :: kept) []
  last.mergeSort fun a b => !decide (b.file < a.file)

/-- The report of a suite: a record with a field for every file. -/
def report (results : List FileResult) : String :=
  (JsonValue.record ((byFile results).map fun result => (result.file, result.toJson))).indented

def hasFailures (results : List FileResult) : Bool := (byFile results).any (·.status.isBad)

end IntC.Suite
