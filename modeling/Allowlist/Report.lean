import Allowlist.Outline
import Allowlist.RuleSet

/-!
# Report — a recorded match in print

The outline of a trace names the kind of every visited shape, whether it matched, and what it was
offered.
-/

namespace Allowlist

namespace Trace

/-- The hop that a shape was offered, as it stands in the path. -/
def hopOutline (hop : Option Hop) : Outline :=
  .option (hop.map fun h => .text h.render)

mutual
def outline : Trace → Outline
  | key matched remaining =>
    .record "Key" [("matched", .bool matched), ("remaining", .nat remaining)]
  | object matched hop child =>
    .record "Object"
      [("matched", .bool matched), ("hop", hopOutline hop), ("child", childOutline child)]
  | array matched hop elements =>
    .record "Array"
      [("matched", .bool matched), ("hop", hopOutline hop),
        ("elements", .list (elementOutlines elements))]

def childOutline : Option Trace → Outline
  | none => .option none
  | some trace => .option (some trace.outline)

def elementOutlines : List Trace → List Outline
  | [] => []
  | trace :: traces => trace.outline :: elementOutlines traces
end

end Trace

namespace Report

def outline (report : Report) : Outline :=
  .record "MatchTrace"
    [("path", .text report.path),
      ("permitted", .bool report.permitted),
      ("hops", .option (report.hops.map fun hops => .texts (hops.map Hop.render))),
      ("root", .option (report.root.map Trace.outline))]

end Report

end Allowlist
