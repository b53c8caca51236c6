import Onedis.Network.SessionAcl
import Onedis.Network.SessionGlob
import Onedis.Server.Exec
import Onedis.Store.ChunkedScan
import Onedis.Store.CounterSequential
import Onedis.Store.EditDistance
import Onedis.Store.HashLenCoherence
import Onedis.Store.HashPipeline
import Onedis.Store.JsonRootBatch
import Onedis.Store.KeyScan
import Onedis.Store.ListConserve
import Onedis.Store.MergeOperator
import Onedis.Store.PhraseMatch
import Onedis.Store.SetPipeline
import Onedis.Store.StreamAutoClaim
import Onedis.Store.StreamDelivery
import Onedis.Store.StreamOrder
import Onedis.Store.StreamPending
import Onedis.Store.Summarize
import Onedis.Store.TtlClient
import Onedis.Store.TtlCompleteness
import Onedis.Store.VectorBudget
import Onedis.Store.VectorTopK
import Onedis.Store.VersionCompaction
import Onedis.Store.VersionCounter
import Onedis.Store.ZsetCardCoherence
import Onedis.Store.ZsetSerial
import Onedis.Store.ZsetZeroSigns
