import Overtos.Arena.Frees
import Overtos.Audio.Buffers
import Overtos.Audio.ChannelMap
import Overtos.Audio.Inputs
import Overtos.Audio.Sort
import Overtos.Audio.Starts
import Overtos.Audio.Timing
import Overtos.Bus.Async
import Overtos.Bus.Spi
import Overtos.Channels.Blocking
import Overtos.Channels.Disconnect
import Overtos.Fs.Refinement
import Overtos.HttpClient.Response
import Overtos.Httpd.ContentLength
import Overtos.Httpd.Escape
import Overtos.Httpd.Fragments
import Overtos.Httpd.Handshake
import Overtos.Httpd.LogRing
import Overtos.Httpd.Routes
import Overtos.Httpd.Segmentation
import Overtos.Httpd.Sends
import Overtos.Httpd.Sockets
import Overtos.Httpd.Wire
import Overtos.Loader.Canonical
import Overtos.Loader.Placement
import Overtos.Loader.Ranges
import Overtos.Loader.Termination
import Overtos.Media.Exclusion
import Overtos.Mqtt.Acks
import Overtos.Mqtt.Reading
import Overtos.Mqtt.Resources
import Overtos.Mqtt.Topics
import Overtos.Nvs.Zephyr
import Overtos.Pm.Domains
import Overtos.Pm.Uptime
import Overtos.Rings.Producers
import Overtos.RtScope.Timer
import Overtos.Storage.Adapter
import Overtos.Storage.Requests
import Overtos.Streams.Wakeups
import Overtos.Sync.Condvar
import Overtos.Sync.EventGroup
import Overtos.Sync.Events
import Overtos.Sync.Nodes
import Overtos.Sync.Queue
import Overtos.Threads.Join
import Overtos.Time.Runtime
import Overtos.Time.Ticks
import Overtos.Work.Once
import Overtos.Work.Pending
import Overtos.Work.Release
import Overtos.Work.Waiters
