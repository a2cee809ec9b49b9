import AppRegistry.Config
import AppRegistry.Proofs.Application.Programs
import AppRegistry.Proofs.Disk.Confined
import AppRegistry.Proofs.Disk.Crash
import AppRegistry.Proofs.Disk.Idempotence
import AppRegistry.Proofs.Disk.Shape
import AppRegistry.Proofs.Disk.Superseded
import AppRegistry.Proofs.Disk.Walks
import AppRegistry.Proofs.Json.Codecs
import AppRegistry.Proofs.Key.Text
import AppRegistry.Proofs.Registry.Accounts
import AppRegistry.Proofs.Registry.Catalog
import AppRegistry.Proofs.Registry.Fidelity
import AppRegistry.Proofs.Registry.History
import AppRegistry.Proofs.Registry.Instances
import AppRegistry.Proofs.Registry.Leftovers
import AppRegistry.Proofs.Registry.Ownership
import AppRegistry.Proofs.Registry.Patches
import AppRegistry.Proofs.Registry.Readback
import AppRegistry.Proofs.Registry.Redeployment
import AppRegistry.Proofs.Registry.Room
import AppRegistry.Proofs.Registry.Scaling
import AppRegistry.Proofs.Registry.Settling
import AppRegistry.Proofs.Registry.Soundness
import AppRegistry.Proofs.Registry.Unstorable
import AppRegistry.Registry.Basic
import AppRegistry.Proofs.Registry.Places
import AppRegistry.Proofs.Application.Building
