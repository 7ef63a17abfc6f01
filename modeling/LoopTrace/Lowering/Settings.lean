import LoopTrace.Code.Convention
import LoopTrace.Text.Quoted

/-!
# Settings

What can be chosen about the lowering of traces, and three sets of choices.
-/

namespace LoopTrace

/-- The choices for a lowering. -/
structure Settings where
  /-- Whether slots of values that are no longer needed serve other values. -/
  reuse : Bool := true
  /-- Whether the finished routine is verified. -/
  verify : Bool := true
  /-- Whether the finished routine is shown in the journal. -/
  dump : Bool := false
  /-- The conventions of the calls that are emitted. -/
  abi : Abi := .standard

namespace Settings

/-- Every value in a slot of its own, and the finished routine shown. -/
def debug : Settings := { reuse := false, dump := true }

/-- No verification, for the least delay. -/
def production : Settings := { verify := false }

/-- The settings in words. -/
def text (s : Settings) : String :=
  "LoweringConfig \x7b slot_reuse: " ++ toString s.reuse ++ ", verify: " ++ toString s.verify ++ ", dump_cfg: " ++
    toString s.dump ++ ", abi: " ++ Text.quoted s.abi.name ++ " \x7d"

end Settings

end LoopTrace
