import VlessCard.ByeDpi
import VlessCard.LinkProxies
import VlessCard.Restart
import VlessCard.XrayPools
import VlessCard.XrayRouting
import VlessCard.CloudShards
import VlessCard.Brain
import VlessCard.CloudDecay
import VlessCard.CloudLoad
import VlessCard.TorRotation
import VlessCard.StateBatch
import VlessCard.MaskRotation
import VlessCard.LocalSecrets
import VlessCard.AutoSelector
import VlessCard.ProbeRace
import VlessCard.CloudRange
import VlessCard.MaskLayers
import VlessCard.ConnectPolicy
import VlessCard.AutoComparison
import VlessCard.AutoPool
import VlessCard.DpiLines
import VlessCard.ServerIdentity
import VlessCard.SelectBest
import VlessCard.CloudTrials
import VlessCard.Hysteresis
import VlessCard.RouteChoice
import VlessCard.Draws
import VlessCard.DpiRotation
import VlessCard.MaskDice
import VlessCard.DpiGenes
import VlessCard.DpiBreed
import VlessCard.MaskSharing
import VlessCard.MaskLab
import VlessCard.SelectorRuns
import VlessCard.DesktopRoute
import VlessCard.DesktopParity
import VlessCard.ProbeMemory
import VlessCard.PowerPolicy
import VlessCard.RecordObserver
import VlessCard.Wire
import VlessCard.QuicGrammar
import VlessCard.QuicInitial
import VlessCard.Warp
import VlessCard.MaskKeep
import VlessCard.MaskTuning
import VlessCard.CloudIdentity
import VlessCard.Bisection
import VlessCard.CloudBatches
import VlessCard.FirstFit
import VlessCard.TesterBatches
import VlessCard.RoundRobin
import VlessCard.MaskVariety
import VlessCard.UpdateCopy
import VlessCard.TelegramProbe
import VlessCard.JsonGrammar
import VlessCard.PlayerJson
import VlessCard.Packets
import VlessCard.HttpHost
import VlessCard.Memory
import VlessCard.Frames
import VlessCard.Cursor
import VlessCard.TlsRecords
import VlessCard.TlsTimer
import VlessCard.Desync
import VlessCard.RingMemory
import VlessCard.TcpSplice
import VlessCard.Kavl
import VlessCard.Mpool
import VlessCard.HostLists
import VlessCard.DestCache
