import NoiseGate.Main
import NoiseGate.Proofs.Frame.Conservation
import NoiseGate.Proofs.Frame.Grammar
import NoiseGate.Proofs.Frame.Recovery
import NoiseGate.Proofs.Frame.Reference
import NoiseGate.Proofs.Frame.Safety
import NoiseGate.Proofs.Relay.Accounting
import NoiseGate.Proofs.Relay.Drivers
import NoiseGate.Proofs.Rpc.Method
import NoiseGate.Proofs.Session.Echo
import NoiseGate.Server.Exchange
import NoiseGate.Proofs.Frame.Tearing
import NoiseGate.Proofs.Relay.Turns
import NoiseGate.Proofs.Relay.Laziness
import NoiseGate.Proofs.Server.Senders
import NoiseGate.Proofs.Server.Schedules
import NoiseGate.Proofs.Text.Malformed
import NoiseGate.Proofs.Text.Noise
import NoiseGate.Proofs.Settings.References
import NoiseGate.Proofs.Frame.Progress
import NoiseGate.Proofs.Log.Forwarding
