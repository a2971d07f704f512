import BlockLowering.Files
import BlockLowering.Settings.Document

/-! Settings kept in a file. -/

namespace BlockLowering.Settings

inductive LoadFault where
  | unreadable (path : String) (fault : FileFault)
  | invalid (fault : DocumentFault)

namespace LoadFault

def message : LoadFault → String
  | unreadable path f => "Failed to read config " ++ path ++ ": " ++ f.message
  | invalid f => "Invalid config: " ++ f.message

/-- What lies behind the fault. -/
def source : LoadFault → String
  | unreadable _ f => f.message
  | invalid f => f.message

end LoadFault

def load {m : Type → Type} [Monad m] (files : Files m) (path : String) :
    m (Except LoadFault Settings) := do
  match ← files.read path with
  | .ok text => pure ((decode text).mapError .invalid)
  | .error f => pure (.error (.unreadable path f))

end BlockLowering.Settings
