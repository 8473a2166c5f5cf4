import DeviceForge.Bracket
/-!
# Errors

The causes for which a device cannot be processed, and the one place that words them.
-/

namespace DeviceForge

/-- Why a file or folder could not be read or written. -/
inductive FileFault where
  | missing
  | isFolder
  | notAFolder
  | exists
  | tooLong
  | zeroByte
  deriving DecidableEq, Repr

def FileFault.message : FileFault → String
  | .missing => "No such file or directory (os error 2)"
  | .isFolder => "Is a directory (os error 21)"
  | .notAFolder => "Not a directory (os error 20)"
  | .exists => "File exists (os error 17)"
  | .tooLong => "File name too long (os error 36)"
  | .zeroByte => "file name contained an unexpected NUL byte"

/-- The parts of an invalid choice of options. -/
inductive OptionFault where
  | unknownPhase (name : String)
  | noPhase
  | unknownSource (name : String)
  deriving DecidableEq, Repr

def OptionFault.message : OptionFault → String
  | .unknownPhase name => s!"unknown phase '{name}'"
  | .noPhase => "no phase selected"
  | .unknownSource name => s!"unknown AC source '{name}'"

inductive Error where
  | unbalanced (bracket : Bracket) (offset : Nat)
  | notABracket (found : Char) (offset : Nat)
  | missingSwitch (offset : Nat)
  /-- The interface file holds no device description, or several. -/
  | missingInfo (file : String) (found : Nat)
  | malformedInfo (reason : String)
  | undefinedEntryPoint (kind : String)
  | entryPointNotFound (name folder : String)
  | variableNotFound (type name folder : String)
  | missingArgument (method : String) (index : Nat)
  /-- An accessor never binds its generic argument to the device. -/
  | missingBinding (method : String)
  | missingModelLoop (method : String)
  | missingInstanceLoop (method : String)
  /-- Two phases disagree on the type of a shared variable. -/
  | sharedConflict (name first second : String)
  | noAccessor (id : String)
  | invalidOptions (fault : OptionFault)
  | unreadable (path : String) (fault : FileFault)
  | unwritable (path : String) (fault : FileFault)
  deriving DecidableEq, Repr

def Error.message : Error → String
  | .unbalanced b offset =>
    let opening := b.opening
    let closing := b.closing
    s!"Unbalanced delimiter '{opening}' at offset {offset}: no matching '{closing}' before end of text"
  | .notABracket found offset => s!"Character '{found}' at offset {offset} is not an opening delimiter"
  | .missingSwitch offset => s!"No switch statement found after offset {offset}"
  | .missingInfo file found => s!"Expected exactly one SPICEdev info structure in '{file}', found {found}"
  | .malformedInfo reason => s!"Malformed device info structure: {reason}"
  | .undefinedEntryPoint kind => s!"Entry point '{kind}' is not defined for this device"
  | .entryPointNotFound name folder => s!"Could not find entry point '{name}' in '{folder}'"
  | .variableNotFound type name folder => s!"Could not find variable '{type} {name}' in '{folder}'"
  | .missingArgument method index => s!"Entry point '{method}' has no parameter at position {index}"
  | .missingBinding method => s!"Could not find the instance binding ('here') in '{method}'"
  | .missingModelLoop method => s!"Could not find the model iterator in '{method}'"
  | .missingInstanceLoop method => s!"Could not find the instance iterator in '{method}'"
  | .sharedConflict name first second =>
    s!"Cannot share variable '{name}': inferred as '{first}' and as '{second}'"
  | .noAccessor id => s!"Invalid declaration state for parameter id '{id}': no setter and no getter"
  | .invalidOptions fault =>
    let reason := fault.message
    s!"Invalid configuration: {reason}"
  | .unreadable path fault =>
    let reason := fault.message
    s!"Failed to read source file '{path}': {reason}"
  | .unwritable path fault =>
    let reason := fault.message
    s!"Failed to write output file '{path}': {reason}"

end DeviceForge
