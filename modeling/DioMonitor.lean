import DioMonitor.Lib.Transition
import DioMonitor.Lib.Share
import DioMonitor.Server.Proofs.ControlProofs
import DioMonitor.Server.Proofs.PassesCoarseProofs
import DioMonitor.Server.Proofs.NamesProofs
import DioMonitor.Server.Proofs.RegistrationProofs
import DioMonitor.Server.Proofs.VmProofs
import DioMonitor.Server.Proofs.AcceptProofs
import DioMonitor.Server.Proofs.OutcomeProofs
import DioMonitor.Server.Proofs.DescriptorProofs
import DioMonitor.Client.Proofs.MainProofs
import DioMonitor.Net.Proofs.FramingProofs
import DioMonitor.Market.Proofs.SubtractionProofs
import DioMonitor.Market.Proofs.AuctionProofs
import DioMonitor.Market.Proofs.BoundsProofs
import DioMonitor.Libvirt.Proofs.CgroupProofs
import DioMonitor.Libvirt.Proofs.ConsumptionProofs
import DioMonitor.Utils.Proofs.DumpProofs
import DioMonitor.Utils.Proofs.StrictProofs
import DioMonitor.Utils.Proofs.TerminationProofs
import DioMonitor.Utils.Proofs.MisreadProofs
import DioMonitor.Utils.Proofs.LiteralProofs
import DioMonitor.Server.Proofs.RaplProofs
import DioMonitor.Libvirt.Proofs.StatProofs
import DioMonitor.Libvirt.Proofs.FrequencyProofs
import DioMonitor.Net.Proofs.AddrProofs
import DioMonitor.Utils.Proofs.IntTokenizerProofs
import DioMonitor.Utils.Proofs.LineNumberProofs
import DioMonitor.Libvirt.Proofs.TrendProofs
import DioMonitor.Test.Proofs.ScenarioProofs
import DioMonitor.Test.Proofs.BestFitProofs
import DioMonitor.Market.Proofs.CapacityProofs
import DioMonitor.Server.Proofs.AccountProofs
import DioMonitor.Server.Proofs.ThreadsProofs
import DioMonitor.Server.Proofs.ObjectsProofs
import DioMonitor.Concurrency.Proofs.ProcProofs
import DioMonitor.Test.Proofs.LauncherProofs
import DioMonitor.Test.Proofs.PortsProofs
import DioMonitor.Test.Proofs.ScheduleProofs
import DioMonitor.Utils.Proofs.ConfigRunProofs
