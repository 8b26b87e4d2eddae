import P2pMpc.ErrorAtomicity
import P2pMpc.KeyShareWindow
import P2pMpc.PartyCount
import P2pMpc.SigningIndices
import P2pMpc.AllAccepted
import P2pMpc.Initiator
import P2pMpc.Reinstall
import P2pMpc.Authenticity
import P2pMpc.Confidentiality
import P2pMpc.Delivery
import P2pMpc.PhasesInStep
import P2pMpc.PhaseMonotone
import P2pMpc.Provenance
import P2pMpc.HandshakeAgreement
import P2pMpc.RouterRefinesMock
import P2pMpc.Isolation
import P2pMpc.Convergence
import P2pMpc.SigningWait
import P2pMpc.FailedAcceptance
import P2pMpc.AssignmentBijection
import P2pMpc.InstalledIndices
import P2pMpc.FreshExecutions
import P2pMpc.LocalIndex
import P2pMpc.SignerSets
import P2pMpc.SignatureOwner
import P2pMpc.InitiatorObserves
import P2pMpc.Readiness
import P2pMpc.SessionNames
import P2pMpc.SessionArithmetic
import P2pMpc.InstalledRoster
import P2pMpc.SwarmEvents
import P2pMpc.WireFormat
import P2pMpc.Abort
import P2pMpc.InnerLocks
import P2pMpc.LockProgress
import P2pMpc.SignaturePoll
import P2pMpc.LockService
import P2pMpc.Completion
import P2pMpc.ExecutionOrigin
import P2pMpc.StateMetrics
import P2pMpc.MessageMetrics
import P2pMpc.SharedSessions
import P2pMpc.AtomicHandlers
