import EthEmu.Emu.Types
import EthEmu.Json.Value
import EthEmu.Json.Scan
import EthEmu.Json.RoundTrip
import EthEmu.Emu.Codec
import EthEmu.Emu.Store
import EthEmu.Emu.AddrById
import EthEmu.Gen.Miners
import EthEmu.Gen.Peers
import EthEmu.Gen.Progress
import EthEmu.Gen.Config
import EthEmu.Gen.Density
import EthEmu.Run.Continuous
import EthEmu.Run.TxBench
import EthEmu.Run.HeightBench
import EthEmu.Run.Startup
import EthEmu.Badger.Batch
import EthEmu.Badger.Iterator
import EthEmu.Rawdb.IndexEntry
import EthEmu.P2p.Tracker
