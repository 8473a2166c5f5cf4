import DeviceForge.Main
import DeviceForge.Proofs.Directive.Selection
import DeviceForge.Proofs.Circuit.Moves
import DeviceForge.Proofs.Circuit.Laplace
import DeviceForge.Proofs.Circuit.Elements
import DeviceForge.Proofs.Iteration.Variables
import DeviceForge.Proofs.Parameter.Account
import DeviceForge.Proofs.Device.Literal
import DeviceForge.Proofs.Switch.Cases
import DeviceForge.Proofs.Setup.Nodes
import DeviceForge.Proofs.Layout.Normal
import DeviceForge.Proofs.Class.Indent
import DeviceForge.Proofs.Parameter.Rows
import DeviceForge.Proofs.Setup.Preset
import DeviceForge.Proofs.Layout.Shape
import DeviceForge.Proofs.Parameter.Shapes
import DeviceForge.Proofs.Class.Merging
import DeviceForge.Proofs.Directive.Disjoint
import DeviceForge.Proofs.Setup.Constants
import DeviceForge.Proofs.Signature
import DeviceForge.Proofs.Iteration.Declarations
