import WakeMyPc.Foundations.Program
import WakeMyPc.Foundations.History
import WakeMyPc.Foundations.Interpretation
import WakeMyPc.Foundations.Runs
import WakeMyPc.Foundations.Guarded
import WakeMyPc.Foundations.GuardedRuns
import WakeMyPc.Foundations.Decoder
import WakeMyPc.Foundations.NumberCodes
import WakeMyPc.Foundations.Framing
import WakeMyPc.Foundations.Keyed
import WakeMyPc.Foundations.Files
import WakeMyPc.Foundations.WriteBack
import WakeMyPc.Foundations.Records
import WakeMyPc.Foundations.Rounds
import WakeMyPc.Foundations.Resampling
import WakeMyPc.Foundations.ResamplingLaw
import WakeMyPc.Machine
import WakeMyPc.Protocol.Postcard
import WakeMyPc.Protocol.Message
import WakeMyPc.Protocol.Envelope
import WakeMyPc.Protocol.RoundTrip
import WakeMyPc.Protocol.Stream
import WakeMyPc.Protocol.Grammar
import WakeMyPc.Crypto.Nonce
import WakeMyPc.Crypto.NonceRuns
import WakeMyPc.Foundations.GuessingGame
import WakeMyPc.Crypto.Pairing
import WakeMyPc.Crypto.PairingCodes
import WakeMyPc.Crypto.BruteForce
import WakeMyPc.Crypto.PairingRuns
import WakeMyPc.Daemon.Keystore
import WakeMyPc.Daemon.KeystoreFile
import WakeMyPc.Daemon.Reauth
import WakeMyPc.Crypto.Pin
import WakeMyPc.Daemon.Effects
import WakeMyPc.Daemon.Connection
import WakeMyPc.Daemon.Admin
import WakeMyPc.Daemon.PairingFlow
import WakeMyPc.Daemon.Reader
import WakeMyPc.Daemon.Chunking
import WakeMyPc.Daemon.ReceiveBuffer
import WakeMyPc.Daemon.Dispatch
import WakeMyPc.Daemon.Session
import WakeMyPc.Daemon.ExactlyOnce
import WakeMyPc.Daemon.Outbound
import WakeMyPc.Daemon.FramingErrors
import WakeMyPc.Daemon.UnknownTags
import WakeMyPc.Daemon.Revocation
import WakeMyPc.Daemon.Latch
import WakeMyPc.Daemon.ReauthReport
import WakeMyPc.Daemon.Host
import WakeMyPc.Daemon.Edits
import WakeMyPc.Daemon.ConnectionHistory
import WakeMyPc.Daemon.CommandHistory
import WakeMyPc.Daemon.PairingHistory
import WakeMyPc.Daemon.PairingWindow
import WakeMyPc.Daemon.PairingSoundness
import WakeMyPc.Daemon.RejectedPairing
import WakeMyPc.Daemon.PairingExit
import WakeMyPc.Daemon.PairingReauth
import WakeMyPc.Daemon.Authorization
import WakeMyPc.Daemon.Ledger
import WakeMyPc.Daemon.LostUpdate
import WakeMyPc.Daemon.Pickup
import WakeMyPc.Daemon.AllOrNothing
import WakeMyPc.Daemon.KeystoreInvariant
import WakeMyPc.Daemon.RevokeByName
import WakeMyPc.Daemon.PhoneNames
import WakeMyPc.Daemon.FileSystem
import WakeMyPc.Daemon.ConcurrentSaves
import WakeMyPc.Daemon.Quiescence
import WakeMyPc.Daemon.ActivePhones
import WakeMyPc.Daemon.Locks
import WakeMyPc.Daemon.LockRuns
import WakeMyPc.Foundations.Resources
import WakeMyPc.Foundations.Draining
import WakeMyPc.Foundations.Lockstep
import WakeMyPc.Foundations.Streaming
import WakeMyPc.Daemon.Startup
import WakeMyPc.Daemon.Windows
import WakeMyPc.Daemon.WindowsHost
import WakeMyPc.Daemon.WindowsHistory
import WakeMyPc.Daemon.WindowsSaves
import WakeMyPc.Daemon.WindowsRuns
import WakeMyPc.Daemon.WindowsCommands
import WakeMyPc.Daemon.Runtime
import WakeMyPc.Daemon.Service
import WakeMyPc.Daemon.ServiceRuns
import WakeMyPc.Daemon.OtherPhones
import WakeMyPc.Daemon.CutShort
import WakeMyPc.Daemon.Reloading
import WakeMyPc.Daemon.PeerAddresses
import WakeMyPc.Daemon.WindowsLoads
import WakeMyPc.Daemon.WindowsRefines
