import CamlInterp.CellStoreProofs
import CamlInterp.LinearProbeProofs
import CamlInterp.ValueProofs
import CamlInterp.OpcodeProofs
import CamlInterp.MachineProofs
import CamlInterp.InstrProofs
import CamlInterp.ControlProofs
import CamlInterp.InterpProofs
import CamlInterp.UpstreamProofs
import CamlInterp.HashMapProofs
import CamlInterp.FuncStackProofs
import CamlInterp.RunProofs
import CamlInterp.ProfilerProofs
import CamlInterp.StepProofs
import CamlInterp.DebugRunProofs
import CamlInterp.MatrixProofs
import CamlInterp.AttributionProofs
import CamlInterp.BalanceProofs
import CamlInterp.DepthProofs
import CamlInterp.ParentChainProofs
import CamlInterp.CustodyProofs
import CamlInterp.FiberProofs
import CamlInterp.OwnershipProofs
import CamlInterp.EffectProofs
import CamlInterp.RoundTripProofs
import CamlInterp.UnhandledProofs
import CamlInterp.CurryProofs
import CamlInterp.ClosureRecProofs
import CamlInterp.RelatedProofs
import CamlInterp.FusionProofs
import CamlInterp.MethodCacheProofs
import CamlInterp.PerformProofs
import CamlInterp.PassageProofs
import CamlInterp.BystanderProofs
import CamlInterp.HandlerCallProofs
import CamlInterp.TrapProofs
import CamlInterp.CallbackProofs
import CamlInterp.RelocationProofs
import CamlInterp.CallProofs
import CamlInterp.ArithProofs
import CamlInterp.RestartProofs
import CamlInterp.BackpatchProofs
import CamlInterp.EmitProofs
import CamlInterp.SwitchProofs
import CamlInterp.AdvanceProofs
import CamlInterp.ThreadProofs
import CamlInterp.IteratorProofs
import CamlInterp.SignalProofs
import CamlInterp.TakenProofs
import CamlInterp.YoungProofs
import CamlInterp.LoopProofs
import CamlInterp.ScannerProofs
import CamlInterp.LexemeProofs
import CamlInterp.TokenProofs
import CamlInterp.LifoProofs
import CamlInterp.HashKeyProofs
import CamlInterp.ProbeProofs
import CamlInterp.AliProofs
import CamlInterp.LocalProofs
import CamlInterp.TowerProofs
import CamlInterp.AgreementProofs
import CamlInterp.LockstepProofs
import CamlInterp.PrimitiveProofs
import CamlInterp.LambdaProofs
import CamlInterp.MatchingProofs
import CamlInterp.BytegenProofs
import CamlInterp.AssemblyProofs
import CamlInterp.BytegenLabelProofs
import CamlInterp.TripleProofs
import CamlInterp.BytegenFuelProofs
import CamlInterp.CompileProofs
import CamlInterp.SkipListProofs
import CamlInterp.SkipMapProofs
import CamlInterp.SkipArenaProofs
import CamlInterp.GlobalRootProofs
import CamlInterp.BreakpointProofs
import CamlInterp.SectionProofs
import CamlInterp.StripProofs
import CamlInterp.LoadProofs
import CamlInterp.ThreadLoadProofs
import CamlInterp.CompareProofs
import CamlInterp.ProgramProofs
