import NoncesHeatmap.Network.Accounting
import NoncesHeatmap.Network.Adversary
import NoncesHeatmap.Network.Calls
import NoncesHeatmap.Network.Refetch
import NoncesHeatmap.App.Ending
import NoncesHeatmap.Base.Expand
import NoncesHeatmap.Config.Autosave
import NoncesHeatmap.Nonces.File
import NoncesHeatmap.Http.Reports
import NoncesHeatmap.Http.Delivered
import NoncesHeatmap.Http.Timeout
import NoncesHeatmap.Http.Lifecycle
import NoncesHeatmap.Heatmap.Slice
import NoncesHeatmap.Heatmap.Buffers
import NoncesHeatmap.Heatmap.Scale
import NoncesHeatmap.Heatmap.Window
import NoncesHeatmap.Heatmap.Paths
import NoncesHeatmap.Config.Defaults
import NoncesHeatmap.Base.Offset
import NoncesHeatmap.Http.Headers
import NoncesHeatmap.Base.MemPool
import NoncesHeatmap.Base.LogPrivate
import NoncesHeatmap.Heatmap.Colors
import NoncesHeatmap.App.Sessions
import NoncesHeatmap.Base.Cvt
import NoncesHeatmap.App.Disk
import NoncesHeatmap.Config.File
import NoncesHeatmap.Http.Request
import NoncesHeatmap.Network.Transport
import NoncesHeatmap.Http.Tls
