import ZeroMQ.Queue.YpipeMem
import ZeroMQ.Queue.Statements
import ZeroMQ.Queue.Interleave
import ZeroMQ.Pipe.Flow
import ZeroMQ.Pipe.Shutdown
import ZeroMQ.Dispatch.Wakeup
import ZeroMQ.Codec.Basic
import ZeroMQ.Codec.Bp
import ZeroMQ.Codec.RoundTrip
import ZeroMQ.Engine.Basic
import ZeroMQ.Engine.Safety
import ZeroMQ.Engine.Stream
import ZeroMQ.Engine.Transfer
import ZeroMQ.Lib.Refcount
import ZeroMQ.Message.Raw
import ZeroMQ.Message.Fanout
import ZeroMQ.Pgm.Sender
import ZeroMQ.Pgm.Receiver
import ZeroMQ.Pgm.Delivery
import ZeroMQ.Dispatch.Eventfd
import ZeroMQ.Locator.Protocol
import ZeroMQ.Locator.Server
import ZeroMQ.Locator.System
import ZeroMQ.Amqp.Encoder
import ZeroMQ.Amqp.Reset
import ZeroMQ.Amqp.Decoder
import ZeroMQ.Amqp.RoundTrip
import ZeroMQ.Amqp.Content
import ZeroMQ.Amqp.Client
import ZeroMQ.Lib.Framing
import ZeroMQ.Amqp.Frames
import ZeroMQ.Amqp.Cursors
import ZeroMQ.Amqp.Pipes
import ZeroMQ.Amqp.Publishing
import ZeroMQ.Amqp.Tables
import ZeroMQ.Amqp.Fields
import ZeroMQ.Amqp.Marshalling
import ZeroMQ.Engine.Attachment
import ZeroMQ.Poller.Contract
import ZeroMQ.Poller.Monitors
import ZeroMQ.Poller.Reentrant
import ZeroMQ.Dam.File
import ZeroMQ.Dam.Store
import ZeroMQ.Codec.Chunking
import ZeroMQ.Pipe.Period
import ZeroMQ.Pipe.Gap
import ZeroMQ.Lib.Rotation
import ZeroMQ.Message.Balancer
import ZeroMQ.Message.Mux
import ZeroMQ.Api.Fetch
import ZeroMQ.Pipe.Mark
import ZeroMQ.Message.Publisher
import ZeroMQ.Codec.Space
import ZeroMQ.Engine.Held
import ZeroMQ.Engine.LivePipes
import ZeroMQ.Engine.Refinement
import ZeroMQ.Engine.Timers
import ZeroMQ.Dispatch.Drains
import ZeroMQ.Locator.Select
import ZeroMQ.Amqp.Deliveries
