import Orga.Bits.Fshow
import Orga.Bits.TestRuns
import Orga.CacheSim.Accounting
import Orga.CacheSim.Arguments
import Orga.CacheSim.Competitive
import Orga.CacheSim.Inclusion
import Orga.CacheSim.Lines
import Orga.CacheSim.Report
import Orga.CacheSim.TraceFile
import Orga.Cp.Interruptions
import Orga.Malloc.Copying
import Orga.Malloc.FailedInit
import Orga.Malloc.Fcyc
import Orga.Malloc.FreeOrder
import Orga.Malloc.Naive
import Orga.Malloc.Oracle
import Orga.Malloc.Session
import Orga.Recode.Chains
import Orga.Recode.Compaction
