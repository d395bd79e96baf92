import Shachain2pc.Circuit.DerivationOverflow
import Shachain2pc.Circuit.ParseBristol
import Shachain2pc.Circuit.TileLevels
import Shachain2pc.Compat.BaseOtJoint
import Shachain2pc.Compat.BaseOtRun
import Shachain2pc.Compat.CggmTree
import Shachain2pc.Compat.CircuitMeaning
import Shachain2pc.Compat.CotBootstrap
import Shachain2pc.Compat.CotCalls
import Shachain2pc.Compat.CotCheck
import Shachain2pc.Compat.CotCorrelation
import Shachain2pc.Compat.CotJoint
import Shachain2pc.Compat.CotStream
import Shachain2pc.Compat.DirectAnds
import Shachain2pc.Compat.DirectPrograms
import Shachain2pc.Compat.EmpRo
import Shachain2pc.Compat.GammaSoundness
import Shachain2pc.Compat.IndexProgram
import Shachain2pc.Compat.InputRun
import Shachain2pc.Compat.Mitccrh
import Shachain2pc.Compat.OutputLambda
import Shachain2pc.Compat.PprfCheck
import Shachain2pc.Compat.SessionCalls
import Shachain2pc.Compat.SessionIo
import Shachain2pc.Compat.SessionJoint
import Shachain2pc.Compat.SessionRounds
import Shachain2pc.Compat.SessionRun
import Shachain2pc.Compat.StreamEnd
import Shachain2pc.Compat.TileMeaning
import Shachain2pc.Compat.TripleCalls
import Shachain2pc.Compat.TripleCompute
import Shachain2pc.Compat.TripleLayers
import Shachain2pc.Compat.TriplePoolIo
import Shachain2pc.Compat.TripleRounds
import Shachain2pc.Daemon.DeltaLifetimeRun
import Shachain2pc.Daemon.Flush
import Shachain2pc.Daemon.FullDerivation
import Shachain2pc.Daemon.JobPairingRun
import Shachain2pc.Daemon.JobStreamFaithful
import Shachain2pc.Daemon.KnownSecretsRun
import Shachain2pc.Daemon.LegacyMigration
import Shachain2pc.Daemon.ReconcileRace
import Shachain2pc.Daemon.RecordRoundTrip
import Shachain2pc.Daemon.RevealRetry
import Shachain2pc.Daemon.SchedulerExclusive
import Shachain2pc.Daemon.SchedulerKnown
import Shachain2pc.Daemon.SecurityParameter
import Shachain2pc.Daemon.SessionRegistry
import Shachain2pc.Lib.ChunkedStream
import Shachain2pc.Lib.FailedRuns
import Shachain2pc.Lib.JointRuns
import Shachain2pc.Mpc.FlowRun
import Shachain2pc.Mpc.FrameRoundTrip
import Shachain2pc.Mpc.HandshakeAgreement
import Shachain2pc.Party.CacheJoint
import Shachain2pc.Party.CacheModes
import Shachain2pc.Party.DigestSeparation
import Shachain2pc.Party.PartyJoint
import Shachain2pc.Party.PartySession
import Shachain2pc.Party.PrecomputePair
import Shachain2pc.Party.PublicReveal
import Shachain2pc.Party.RangeSplit
import Shachain2pc.Party.RunParty
import Shachain2pc.Party.RunPartyJoint
import Shachain2pc.Party.RunRefusal
import Shachain2pc.Party.StandaloneJoint
import Shachain2pc.Party.StandaloneModes
import Shachain2pc.Wire.BoolPacking
