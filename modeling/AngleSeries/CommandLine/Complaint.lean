import AngleSeries.Fault

/-!
# Complaints

What the command line prints about a fault. Faults of the input name the field and its value,
configurations list their errors, and a wrong command line is pointed to the help.
-/

namespace AngleSeries

inductive Complaint where
  | input (fields : List Text) (value message : Text)
  | config (message : Text) (issues : List Issue)
  | usage (message : Text)
  | other (message : Text)

namespace Complaint

def ofFault : Fault → Complaint
  | .field fault => .input fault.fields fault.value fault.message
  | .badConfig message issues => .config message issues
  | .usage message _ => .usage message
  | fault => .other (fault.message?.getD "")

def issueLine (issue : Issue) : Text :=
  "  • " ++ issue.message ++ " (" ++ issue.code ++ ")"

def ofSeverity (severity : Severity) (issues : List Issue) : List Issue :=
  issues.filter fun issue => issue.severity = severity

def lines : Complaint → List Text
  | .input fields value message =>
    ["Invalid input " ++ Text.join "+" fields ++ "=" ++ value ++ ": " ++ message]
  | .config message issues => message :: (ofSeverity .error issues).map issueLine
  | .usage message => [message, "Run \"plm --help\" for usage."]
  | .other message => [message]

end Complaint

end AngleSeries
